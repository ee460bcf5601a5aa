import MpidtBench.Library.Pages
import MpidtBench.Proofs.XpmemLoops

namespace MpidtBench.XpmemMapped
open Traced CInteger ScatterGather Pages MpidtBench XpmemLoops

-- A segment that answers the request for a block.
def Answers (pageSize : Nat) (v : IoVec) (segment : SegPtr) : Prop :=
  ∃ vaddr, segment = .mapped ⟨(request pageSize v).1,(request pageSize v).2,vaddr⟩

-- What a receiver's actions are while every attach call succeeds and every Bcast brings
-- the same list.
def Exact (pageSize lbuf : Nat) (iov : List IoVec) : Act → Prop
  | .bcast what count => what = .iov ∧ count = iovecBytes iov.length
  | .gather => True
  | .xpmemGet _ => True
  | .xpmemAttach offset size result => ∃ v ∈ iov, (offset,size) = request pageSize v ∧ Answers pageSize v result
  | .memcpySegment dst segment off len => ∃ (k : Nat) (v : IoVec), iov[k]? = some v ∧ Answers pageSize v segment ∧
      dst = lbuf + total (iov.take k) ∧ off = pgOff pageSize v ∧ len = v.iovLen
  | .xpmemDetach segment => ∃ v ∈ iov, Answers pageSize v segment
  | _ => False

-- The locals between two iterations; the entries of the list are set by the first one.
structure Holding (pageSize : Nat) (iov : List IoVec) (j : Nat) (s : XpmemState) : Prop where
  length : s.attachedSeglist.length = iov.length
  curr : s.lastpagebaseAddr = 0 ∨ ∃ vaddr, s.currAttachPtr = .mapped ⟨s.lastpagebaseAddr,pageSize,vaddr⟩
  segments : 0 < j → ∀ (k : Nat) (v : IoVec), iov[k]? = some v → ∃ segment, s.attachedSeglist[k]? = some segment ∧
    Answers pageSize v segment

-- A list whose blocks lie in pages other than the null page, all of them attachable.
structure Attachable (pageSize : Nat) (driver : XpmemDriver) (iov : List IoVec) : Prop where
  small : total iov ≤ intMax
  page : ∀ v ∈ iov, v.iovLen < pageSize → pageBase pageSize v.iovBase ≠ 0
  granted : ∀ j i v, iov[i]? = some v → (driver.attach j i (request pageSize v).1 (request pageSize v).2).isSome

theorem pageBase_div (power : ∃ k < 63, pageSize = 2 ^ k) (pointer : base < sizeMod) :
    pageBase pageSize base = base / pageSize * pageSize := by
  obtain ⟨k,order,rfl⟩ := power
  exact @land_mask base 64 k (by simp only [sizeMod] at pointer; omega) (by omega)

section
variable {attachNow detachNow : Bool} {pageSize lbuf : Nat} {driver : XpmemDriver} {iov : List IoVec} {s t : XpmemState}

theorem start_holding (apid : Nat) : Holding pageSize iov 0 (XpmemState.start iov.length apid) :=
  ⟨by simp [XpmemState.start],.inl rfl,fun early => absurd early (Nat.lt_irrefl 0)⟩

theorem granted_answer (granted : (driver.attach j i (request pageSize v).1 (request pageSize v).2).isSome) :
    answer pageSize (driver.attach j) i v ≠ .failed := by
  unfold answer
  cases reached : driver.attach j i (request pageSize v).1 (request pageSize v).2 with
  | none => rw [reached] at granted; cases granted
  | some vaddr => exact nofun

theorem granted_answers (granted : (driver.attach j i (request pageSize v).1 (request pageSize v).2).isSome) :
    Answers pageSize v (answer pageSize (driver.attach j) i v) := by
  obtain ⟨vaddr,mapped,_⟩ := answer_fresh (granted_answer granted)
  exact ⟨vaddr,mapped⟩

theorem Attachable.offsets (list : Attachable pageSize driver iov) (k : Nat) (_ : k < iov.length) : total (iov.take k) ≤ intMax :=
  Nat.le_trans (total_take_le iov k) list.small

theorem attach_holding (page : ∀ v ∈ iov, v.iovLen < pageSize → pageBase pageSize v.iovBase ≠ 0)
    (granted : ∀ i v, iov[i]? = some v → (driver.attach j i (request pageSize v).1 (request pageSize v).2).isSome)
    (holding : Holding pageSize iov j s) :
    ∃ t, (attachSegments true pageSize driver iov iov.length j s).out = .ok t ∧ Holding pageSize iov (j+1) t ∧
      Attached pageSize (driver.attach j) iov {s with apid := driver.get j} iov.length
        (forRange iov.length (attachPass pageSize (driver.attach j) iov) {s with apid := driver.get j}).acts t := by
  obtain ⟨t,ended,attached⟩ := @attach_loop pageSize (driver.attach j) iov {s with apid := driver.get j} iov.length
    (Nat.le_refl _) (Nat.le_of_eq holding.length.symm) (fun i _ v known _ => granted_answer (granted i v known))
  refine ⟨t,?_,⟨attached.length.trans holding.length,?_,?_⟩,attached⟩
  · simp only [attachSegments,if_true,Int.toNat_natCast,Run.emit_chain]
    exact ended
  · rcases attached.curr with ⟨held,carried⟩ | ⟨vaddr,mapped,_⟩
    · have same := attached.last
      rw [lastPage_same carried] at same
      rw [held,same]
      exact holding.curr
    · exact .inr ⟨vaddr,mapped⟩
  · intro _ k v known
    have inside : k < iov.length := (List.getElem?_eq_some_iff.mp known).1
    obtain ⟨w,segment,there,held,choice⟩ := attached.segments k inside
    rw [known] at there
    cases there
    refine ⟨segment,held,?_⟩
    rcases choice with ⟨vaddr,mapped,_⟩ | ⟨sub,carried,same⟩
    · exact ⟨vaddr,mapped⟩
    · have shared : pageBase pageSize v.iovBase = s.lastpagebaseAddr :=
        same v (List.mem_iff_getElem?.mpr ⟨k,by rw [List.getElem?_take_of_lt (Nat.lt_succ_self k)]; exact known⟩) sub
      rcases holding.curr with null | ⟨vaddr,mapped⟩
      · exact absurd (shared.trans null) (page v (List.mem_of_getElem? known) sub)
      · refine ⟨vaddr,?_⟩
        rw [carried,request,if_pos sub,shared]
        exact mapped

-- Attaching now or having attached before, every entry answers its block.
theorem front_holding (list : Attachable pageSize driver iov) (holding : Holding pageSize iov j s)
    (attaches : j = 0 → attachNow = true) :
    ∃ t, (attachSegments attachNow pageSize driver iov iov.length j s).out = .ok t ∧ Holding pageSize iov (j+1) t ∧
      ∀ act ∈ (attachSegments attachNow pageSize driver iov iov.length j s).acts, Exact pageSize lbuf iov act := by
  cases attachNow with
  | false =>
      have later : 0 < j := Nat.pos_of_ne_zero fun zero => by cases attaches zero
      exact ⟨s,rfl,⟨holding.length,holding.curr,fun _ => holding.segments later⟩,nofun⟩
  | true =>
      obtain ⟨t,ended,next,attached⟩ := attach_holding list.page (list.granted j) holding
      refine ⟨t,ended,next,?_⟩
      intro act member
      rcases List.mem_cons.mp member with rfl | later
      · trivial
      · obtain ⟨k,v,_,known,_,rfl⟩ := attached.asked act later
        exact ⟨v,List.mem_of_getElem? known,rfl,granted_answers (list.granted j k v known)⟩

theorem copies_at (offsets : ∀ k < iov.length, total (iov.take k) ≤ intMax) (length : t.attachedSeglist.length = iov.length) {act : Act} :
    act ∈ segmentCopies pageSize lbuf 0 (iov.zip t.attachedSeglist) ↔ ∃ (k : Nat) (v : IoVec) (segment : SegPtr), iov[k]? = some v ∧
      t.attachedSeglist[k]? = some segment ∧
      act = .memcpySegment (lbuf + total (iov.take k)) segment (pgOff pageSize v) v.iovLen := by
  have running : ∀ k < iov.length, (((iov.zip t.attachedSeglist).take k).map Prod.fst).foldl nextOffset 0 = (total (iov.take k) : Int) := by
    intro k inside
    have offset := @offset_exact 0 (iov.take k) (by rw [Nat.zero_add]; exact offsets k inside)
    rw [List.map_take,List.map_fst_zip (Nat.le_of_eq length.symm)]
    rw [Nat.zero_add] at offset
    exact offset
  rw [segmentCopies_mem]
  constructor
  · intro copied
    obtain ⟨k,v,segment,pair,equal⟩ := copied
    obtain ⟨known,held⟩ := List.getElem?_zip_eq_some.mp pair
    rw [running k (List.getElem?_eq_some_iff.mp known).1,advance_nat] at equal
    exact ⟨k,v,segment,known,held,equal⟩
  · intro copied
    obtain ⟨k,v,segment,known,held,equal⟩ := copied
    refine ⟨k,v,segment,List.getElem?_zip_eq_some.mpr ⟨known,held⟩,?_⟩
    rw [running k (List.getElem?_eq_some_iff.mp known).1,advance_nat]
    exact equal

theorem iteration_exact (list : Attachable pageSize driver iov) (holding : Holding pageSize iov j s)
    (attaches : j = 0 → attachNow = true) :
    ∃ t, (xpmemIteration .receiver attachNow detachNow pageSize lbuf driver iov iov.length j s).out = .ok t ∧
      Holding pageSize iov (j+1) t ∧
      (∀ act ∈ (xpmemIteration .receiver attachNow detachNow pageSize lbuf driver iov iov.length j s).acts,
        Exact pageSize lbuf iov act) ∧
      ∀ (k : Nat) (v : IoVec), iov[k]? = some v → ∃ segment off len, .memcpySegment (lbuf + total (iov.take k)) segment off len ∈
        (xpmemIteration .receiver attachNow detachNow pageSize lbuf driver iov iov.length j s).acts := by
  obtain ⟨t,attached,next,front⟩ := @front_holding attachNow pageSize lbuf driver iov s j list holding attaches
  rw [receiver_iteration attached rfl next.length]
  refine ⟨t,rfl,next,?_,?_⟩
  · intro act member
    simp only [List.mem_cons,List.mem_append,List.not_mem_nil,or_false] at member
    rcases member with rfl | attach | copied | detached | rfl
    · exact ⟨rfl,rfl⟩
    · exact front act attach
    · obtain ⟨k,v,segment,known,held,rfl⟩ := (copies_at list.offsets next.length).mp copied
      obtain ⟨other,there,answers⟩ := next.segments (Nat.succ_pos j) k v known
      rw [held] at there
      cases there
      exact ⟨k,v,known,answers,rfl,rfl,rfl⟩
    · obtain ⟨segment,recorded,rfl⟩ := detached_acts act detached
      obtain ⟨k,held⟩ := List.mem_iff_getElem?.mp recorded
      have inside : k < iov.length := by
        rw [← next.length]
        exact (List.getElem?_eq_some_iff.mp held).1
      have known : iov[k]? = some iov[k] := List.getElem?_eq_getElem inside
      obtain ⟨other,there,answers⟩ := next.segments (Nat.succ_pos j) k _ known
      rw [held] at there
      cases there
      exact ⟨_,List.getElem_mem inside,answers⟩
    · trivial
  · intro k v known
    obtain ⟨segment,held,_⟩ := next.segments (Nat.succ_pos j) k v known
    refine ⟨segment,pgOff pageSize v,v.iovLen,List.mem_cons_of_mem _ (List.mem_append_right _ (List.mem_append_left _ ?_))⟩
    exact (copies_at list.offsets next.length).mpr ⟨k,v,segment,known,held,rfl⟩

end

section
variable {attachNow detachNow : Nat → Bool} {pageSize lbuf : Nat} {driver : XpmemDriver} {iov : List IoVec}

-- The receiver's loop: only such actions, and in every iteration a copy of every block.
theorem loop_exact (list : Attachable pageSize driver iov) (attaches : attachNow 0 = true) (iters apid : Nat) :
    ∃ s, (xpmemLoop .receiver attachNow detachNow iters pageSize lbuf driver (fun _ => iov) iov.length apid).out = .ok s ∧
      Holding pageSize iov iters s ∧
      (∀ event ∈ (xpmemLoop .receiver attachNow detachNow iters pageSize lbuf driver (fun _ => iov) iov.length apid).acts,
        Exact pageSize lbuf iov event.2) ∧
      ∀ j < iters, ∀ (k : Nat) (v : IoVec), iov[k]? = some v → ∃ segment off len,
        (some j,.memcpySegment (lbuf + total (iov.take k)) segment off len) ∈
          (xpmemLoop .receiver attachNow detachNow iters pageSize lbuf driver (fun _ => iov) iov.length apid).acts := by
  refine forRange_invariant (fun count acts s => Holding pageSize iov count s ∧ (∀ event ∈ acts, Exact pageSize lbuf iov event.2) ∧
    ∀ j < count, ∀ (k : Nat) (v : IoVec), iov[k]? = some v → ∃ segment off len,
      (some j,.memcpySegment (lbuf + total (iov.take k)) segment off len) ∈ acts) ?_ ⟨start_holding apid,nofun,nofun⟩
  intro j acts s below given
  obtain ⟨holding,exacts,copied⟩ := given
  obtain ⟨t,ended,next,now,here⟩ := @iteration_exact (attachNow j) (detachNow j) pageSize lbuf driver iov s j list holding
    (fun zero => by rw [zero]; exact attaches)
  refine ⟨t,ended,next,?_,?_⟩
  · intro event member
    rcases List.mem_append.mp member with before | current
    · exact exacts event before
    · obtain ⟨act,issued,rfl⟩ := List.mem_map.mp current
      exact now act issued
  · intro i low k v known
    by_cases last : i = j
    · subst last
      obtain ⟨segment,off,len,issued⟩ := here k v known
      exact ⟨segment,off,len,List.mem_append_right _ (List.mem_map.mpr ⟨_,issued,rfl⟩)⟩
    · obtain ⟨segment,off,len,issued⟩ := copied i (by omega) k v known
      exact ⟨segment,off,len,List.mem_append_left _ issued⟩

end
end MpidtBench.XpmemMapped
