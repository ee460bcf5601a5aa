import MpidtBench.Model.Ranks
import MpidtBench.Model.Xpmem

namespace MpidtBench.XpmemLoops
open Traced CInteger ScatterGather MpidtBench

-- What the code asks xpmem_attach for to reach a block: its page if it is smaller than one.
def request (pageSize : Nat) (v : IoVec) : Nat × Nat :=
  if v.iovLen < pageSize then (pageBase pageSize v.iovBase,pageSize) else (v.iovBase,v.iovLen)

-- lastpagebase_addr behind a list of blocks.
def nextPage (pageSize last : Nat) (v : IoVec) : Nat := if v.iovLen < pageSize then pageBase pageSize v.iovBase else last
def lastPage (pageSize last : Nat) (blocks : List IoVec) : Nat := blocks.foldl (nextPage pageSize) last

-- Whether a block is attached, or shares the page remembered.
def Asks (pageSize last : Nat) (v : IoVec) : Prop := v.iovLen < pageSize → last ≠ pageBase pageSize v.iovBase

def answer (pageSize : Nat) (attach : Nat → Nat → Nat → Option Nat) (i : Nat) (v : IoVec) : SegPtr :=
  attachResult (request pageSize v).1 (request pageSize v).2 (attach i (request pageSize v).1 (request pageSize v).2)

-- A segment mapped for a request by one of the attach calls in `acts`.
def Fresh (acts : List Act) (asked : Nat × Nat) (segment : SegPtr) : Prop :=
  ∃ vaddr, segment = .mapped ⟨asked.1,asked.2,vaddr⟩ ∧ .xpmemAttach asked.1 asked.2 segment ∈ acts

-- The attach loop in front of block `i`, entered with `last` and `curr` remembered.
structure Attached (pageSize : Nat) (attach : Nat → Nat → Nat → Option Nat) (iov : List IoVec) (start : XpmemState)
    (i : Nat) (acts : List Act) (s : XpmemState) : Prop where
  last : s.lastpagebaseAddr = lastPage pageSize start.lastpagebaseAddr (iov.take i)
  apid : s.apid = start.apid
  length : s.attachedSeglist.length = start.attachedSeglist.length
  curr : (s.currAttachPtr = start.currAttachPtr ∧
      ∀ w ∈ iov.take i, w.iovLen < pageSize → pageBase pageSize w.iovBase = start.lastpagebaseAddr) ∨
    Fresh acts (s.lastpagebaseAddr,pageSize) s.currAttachPtr
  segments : ∀ k < i, ∃ v segment, iov[k]? = some v ∧ s.attachedSeglist[k]? = some segment ∧
    (Fresh acts (request pageSize v) segment ∨ (v.iovLen < pageSize ∧ segment = start.currAttachPtr ∧
      ∀ w ∈ iov.take (k+1), w.iovLen < pageSize → pageBase pageSize w.iovBase = start.lastpagebaseAddr))
  asked : ∀ act ∈ acts, ∃ k v, k < i ∧ iov[k]? = some v ∧
    Asks pageSize (lastPage pageSize start.lastpagebaseAddr (iov.take k)) v ∧
    act = .xpmemAttach (request pageSize v).1 (request pageSize v).2 (answer pageSize attach k v)

section
variable {pageSize : Nat} {attach : Nat → Nat → Nat → Option Nat} {iov : List IoVec} {s t start : XpmemState} {v : IoVec}

theorem writeAt_some {list : List τ} (inside : i < list.length) (entry : τ) :
    (writeAt list i entry : Run Fault α (List τ)) = pure (list.set i entry) := by
  simp [writeAt,inside]

-- The three ways through the body of the attach loop.
theorem attach_asked (known : iov[i]? = some v) (room : i < s.attachedSeglist.length)
    (asks : Asks pageSize s.lastpagebaseAddr v) (granted : v.iovLen < pageSize → answer pageSize attach i v ≠ .failed) :
    attachPass pageSize attach iov i s =
      ⟨[.xpmemAttach (request pageSize v).1 (request pageSize v).2 (answer pageSize attach i v)],
        .ok ⟨nextPage pageSize s.lastpagebaseAddr v,
          if v.iovLen < pageSize then answer pageSize attach i v else s.currAttachPtr,
          s.attachedSeglist.set i (answer pageSize attach i v),s.apid⟩⟩ := by
  by_cases small : v.iovLen < pageSize
  · have granted := granted small
    have moved := asks small
    simp only [answer,request,small,if_true] at granted
    simp [attachPass,readAt_some known,small,moved,granted,writeAt_some room,answer,request,nextPage]
  · simp [attachPass,readAt_some known,small,writeAt_some room,answer,request,nextPage]

theorem attach_refused (known : iov[i]? = some v) (asks : Asks pageSize s.lastpagebaseAddr v) (small : v.iovLen < pageSize)
    (refused : answer pageSize attach i v = .failed) :
    attachPass pageSize attach iov i s =
      ⟨[.xpmemAttach (request pageSize v).1 (request pageSize v).2 .failed],.error (.cleanup s.apid)⟩ := by
  have moved := asks small
  simp only [answer,request,small,if_true] at refused
  simp [attachPass,readAt_some known,small,moved,refused,request]

theorem attach_skipped (known : iov[i]? = some v) (room : i < s.attachedSeglist.length) (small : v.iovLen < pageSize)
    (same : s.lastpagebaseAddr = pageBase pageSize v.iovBase) :
    attachPass pageSize attach iov i s =
      ⟨[],.ok ⟨s.lastpagebaseAddr,s.currAttachPtr,s.attachedSeglist.set i s.currAttachPtr,s.apid⟩⟩ := by
  simp [attachPass,readAt_some known,small,same,writeAt_some room]
  rfl

theorem take_succ_of (known : iov[i]? = some v) : iov.take (i+1) = iov.take i ++ [v] := by
  rw [List.take_add_one,known,Option.toList_some]

theorem lastPage_append (last : Nat) (first second : List IoVec) :
    lastPage pageSize last (first ++ second) = lastPage pageSize (lastPage pageSize last first) second := List.foldl_append

theorem lastPage_same {last : Nat} {blocks : List IoVec}
    (same : ∀ w ∈ blocks, w.iovLen < pageSize → pageBase pageSize w.iovBase = last) : lastPage pageSize last blocks = last := by
  induction blocks with
  | nil => rfl
  | cons w rest ih =>
      have head : nextPage pageSize last w = last := by
        unfold nextPage
        split
        · rename_i small; exact same w (by simp) small
        · rfl
      rw [lastPage,List.foldl_cons,head]
      exact ih fun u member => same u (List.mem_cons_of_mem _ member)

theorem Fresh.more {acts : List Act} {segment : SegPtr} (fresh : Fresh acts asked segment) (more : List Act) : Fresh (acts ++ more) asked segment := by
  obtain ⟨vaddr,mapped,made⟩ := fresh
  exact ⟨vaddr,mapped,List.mem_append_left _ made⟩

theorem answer_fresh (granted : answer pageSize attach i v ≠ .failed) :
    Fresh [.xpmemAttach (request pageSize v).1 (request pageSize v).2 (answer pageSize attach i v)] (request pageSize v)
      (answer pageSize attach i v) := by
  cases reached : attach i (request pageSize v).1 (request pageSize v).2 with
  | none => exact absurd (by rw [answer,reached]; rfl) granted
  | some vaddr => exact ⟨vaddr,by rw [answer,reached]; rfl,by simp⟩

theorem segments_step {acts : List Act} {segment : SegPtr} (more : List Act) (old : Attached pageSize attach iov start i acts s)
    (known : iov[i]? = some v) (room : i < s.attachedSeglist.length)
    (recorded : Fresh (acts ++ more) (request pageSize v) segment ∨ (v.iovLen < pageSize ∧ segment = start.currAttachPtr ∧
      ∀ w ∈ iov.take (i+1), w.iovLen < pageSize → pageBase pageSize w.iovBase = start.lastpagebaseAddr)) :
    ∀ k < i+1, ∃ v other, iov[k]? = some v ∧ (s.attachedSeglist.set i segment)[k]? = some other ∧
      (Fresh (acts ++ more) (request pageSize v) other ∨ (v.iovLen < pageSize ∧ other = start.currAttachPtr ∧
        ∀ w ∈ iov.take (k+1), w.iovLen < pageSize → pageBase pageSize w.iovBase = start.lastpagebaseAddr)) := by
  intro k below
  by_cases last : k = i
  · subst last
    exact ⟨v,segment,known,by simp [room],recorded⟩
  · obtain ⟨w,other,there,held,choice⟩ := old.segments k (by omega)
    refine ⟨w,other,there,by rw [List.getElem?_set_ne (Ne.symm last)]; exact held,?_⟩
    rcases choice with fresh | carried
    · exact .inl (fresh.more more)
    · exact .inr carried

theorem not_asks {last : Nat} (silent : ¬ Asks pageSize last v) : v.iovLen < pageSize ∧ last = pageBase pageSize v.iovBase :=
  ⟨Classical.byContradiction fun large => silent fun small => absurd small large,
    Classical.byContradiction fun moved => silent fun _ => moved⟩

theorem Attached.next {acts : List Act} (old : Attached pageSize attach iov start i acts s) (known : iov[i]? = some v) :
    lastPage pageSize start.lastpagebaseAddr (iov.take (i+1)) = nextPage pageSize s.lastpagebaseAddr v := by
  rw [take_succ_of known,lastPage_append,old.last]
  rfl

-- A block that is attached, and one that shares the page remembered.
theorem attached_asked {acts : List Act} (old : Attached pageSize attach iov start i acts s) (known : iov[i]? = some v)
    (room : i < s.attachedSeglist.length) (asks : Asks pageSize s.lastpagebaseAddr v) (succeeded : answer pageSize attach i v ≠ .failed) :
    ∃ t, (attachPass pageSize attach iov i s).out = .ok t ∧
      Attached pageSize attach iov start (i+1) (acts ++ (attachPass pageSize attach iov i s).acts) t := by
  have fresh := answer_fresh succeeded
  rw [attach_asked known room asks fun _ => succeeded]
  refine ⟨_,rfl,(old.next known).symm,old.apid,by simpa using old.length,?_,segments_step _ old known room (.inl ?_),?_⟩
  · by_cases small : v.iovLen < pageSize
    · right
      obtain ⟨vaddr,mapped,made⟩ := fresh
      have asked : request pageSize v = (pageBase pageSize v.iovBase,pageSize) := by rw [request,if_pos small]
      simp only [nextPage,small,if_true]
      rw [asked] at mapped made ⊢
      exact ⟨vaddr,mapped,List.mem_append_right _ made⟩
    · simp only [nextPage,small,if_false]
      rcases old.curr with ⟨held,carried⟩ | held
      · refine .inl ⟨held,?_⟩
        intro w member sub
        rw [take_succ_of known] at member
        rcases List.mem_append.mp member with before | now
        · exact carried w before sub
        · rw [List.mem_singleton.mp now] at sub
          exact absurd sub small
      · exact .inr (held.more _)
  · obtain ⟨vaddr,mapped,made⟩ := fresh
    exact ⟨vaddr,mapped,List.mem_append_right _ made⟩
  · intro act member
    rcases List.mem_append.mp member with before | now
    · obtain ⟨k,w,low,rest⟩ := old.asked act before
      exact ⟨k,w,by omega,rest⟩
    · exact ⟨i,v,by omega,known,old.last ▸ asks,List.mem_singleton.mp now⟩

theorem attached_skipped {acts : List Act} (old : Attached pageSize attach iov start i acts s) (known : iov[i]? = some v)
    (room : i < s.attachedSeglist.length) (silent : ¬ Asks pageSize s.lastpagebaseAddr v) :
    ∃ t, (attachPass pageSize attach iov i s).out = .ok t ∧
      Attached pageSize attach iov start (i+1) (acts ++ (attachPass pageSize attach iov i s).acts) t := by
  obtain ⟨small,same⟩ := not_asks silent
  rw [attach_skipped known room small same,List.append_nil]
  have asked : request pageSize v = (s.lastpagebaseAddr,pageSize) := by rw [request,if_pos small,same]
  have carried : (∀ w ∈ iov.take i, w.iovLen < pageSize → pageBase pageSize w.iovBase = start.lastpagebaseAddr) →
      ∀ w ∈ iov.take (i+1), w.iovLen < pageSize → pageBase pageSize w.iovBase = start.lastpagebaseAddr := by
    intro before w member sub
    rw [take_succ_of known] at member
    rcases List.mem_append.mp member with earlier | now
    · exact before w earlier sub
    · rw [List.mem_singleton.mp now,← same,old.last,lastPage_same before]
  refine ⟨_,rfl,?_,old.apid,by simpa using old.length,?_,?_,?_⟩
  · rw [old.next known,nextPage,if_pos small,same]
  · rcases old.curr with ⟨held,before⟩ | held
    · exact .inl ⟨held,carried before⟩
    · exact .inr held
  · have recorded : Fresh (acts ++ []) (request pageSize v) s.currAttachPtr ∨ (v.iovLen < pageSize ∧
        s.currAttachPtr = start.currAttachPtr ∧
        ∀ w ∈ iov.take (i+1), w.iovLen < pageSize → pageBase pageSize w.iovBase = start.lastpagebaseAddr) := by
      rw [List.append_nil,asked]
      rcases old.curr with ⟨held,before⟩ | held
      · exact .inr ⟨small,held,carried before⟩
      · exact .inl held
    simpa using segments_step [] old known room recorded
  · intro act member
    obtain ⟨k,w,low,rest⟩ := old.asked act member
    exact ⟨k,w,by omega,rest⟩

theorem attached_step {acts : List Act} (old : Attached pageSize attach iov start i acts s) (known : iov[i]? = some v)
    (room : i < start.attachedSeglist.length)
    (granted : Asks pageSize (lastPage pageSize start.lastpagebaseAddr (iov.take i)) v → answer pageSize attach i v ≠ .failed) :
    ∃ t, (attachPass pageSize attach iov i s).out = .ok t ∧
      Attached pageSize attach iov start (i+1) (acts ++ (attachPass pageSize attach iov i s).acts) t := by
  have room : i < s.attachedSeglist.length := old.length ▸ room
  by_cases asks : Asks pageSize s.lastpagebaseAddr v
  · exact attached_asked old known room asks (granted (old.last ▸ asks))
  · exact attached_skipped old known room asks

-- The attach loop over the first `count` blocks, when nothing asked for is refused.
theorem attach_loop (enough : count ≤ iov.length) (room : iov.length ≤ start.attachedSeglist.length)
    (granted : ∀ i < count, ∀ v, iov[i]? = some v → Asks pageSize (lastPage pageSize start.lastpagebaseAddr (iov.take i)) v →
      answer pageSize attach i v ≠ .failed) :
    ∃ s, (forRange count (attachPass pageSize attach iov) start).out = .ok s ∧
      Attached pageSize attach iov start count (forRange count (attachPass pageSize attach iov) start).acts s := by
  refine forRange_invariant (Attached pageSize attach iov start) ?_ ⟨rfl,rfl,rfl,.inl ⟨rfl,nofun⟩,nofun,nofun⟩
  intro i acts s below old
  have known : iov[i]? = some iov[i] := List.getElem?_eq_getElem (by omega)
  exact attached_step old known (by omega) (granted i below _ known)

-- The attach loop does nothing but attach, also where it fails.
def isAttach : Act → Bool
  | .xpmemGet _ => true
  | .xpmemAttach _ _ _ => true
  | _ => false

theorem writeAt_quiet (list : List SegPtr) (i : Nat) (segment : SegPtr) (next : List SegPtr → XpmemState) :
    ((writeAt list i segment : Run Fault Act (List SegPtr)) >>= fun written => pure (next written)).acts = [] := by
  unfold writeAt
  split <;> rfl

theorem attach_calls (i : Nat) (s : XpmemState) :
    ∀ act ∈ (attachPass pageSize attach iov i s).acts, ∃ offset size result, act = .xpmemAttach offset size result := by
  intro act member
  unfold attachPass at member
  cases known : iov[i]? with
  | none => simp [readAt,known] at member
  | some v =>
      rw [readAt_some known,Run.pure_chain] at member
      dsimp only at member
      split at member
      · split at member
        · rw [Run.emit_chain] at member
          rcases List.mem_cons.mp member with rfl | later
          · exact ⟨_,_,_,rfl⟩
          · split at later
            · cases later
            · rw [writeAt_quiet] at later; cases later
        · rw [writeAt_quiet] at member; cases member
      · rw [Run.emit_chain] at member
        rcases List.mem_cons.mp member with rfl | later
        · exact ⟨_,_,_,rfl⟩
        · rw [writeAt_quiet] at later; cases later

end

theorem attaching_quiet {acts : List Act} (attaching : ∀ act ∈ acts, isAttach act = true) : ∀ act ∈ acts, callKind act = none := by
  intro act member
  have attach := attaching act member
  cases act <;> first | rfl | cases attach

-- The copy loop: one memcpy for every block, at the running offset.
def nextOffset (offset : Int) (v : IoVec) : Int := toInt (addSize (toSize offset) v.iovLen)
def segmentCopies (pageSize lbuf : Nat) : Int → List (IoVec × SegPtr) → List Act
  | _,[] => []
  | offset,block :: rest => .memcpySegment (advance lbuf offset) block.2 (pgOff pageSize block.1) block.1.iovLen ::
      segmentCopies pageSize lbuf (nextOffset offset block.1) rest

section
variable {pageSize lbuf : Nat} {iov : List IoVec} {segments : List SegPtr}

theorem segmentCopies_append (offset : Int) (first second : List (IoVec × SegPtr)) :
    segmentCopies pageSize lbuf offset (first ++ second) = segmentCopies pageSize lbuf offset first ++
      segmentCopies pageSize lbuf ((first.map Prod.fst).foldl nextOffset offset) second := by
  induction first generalizing offset with
  | nil => rfl
  | cons block rest ih => simp [segmentCopies,ih]

theorem segmentPass_run {v : IoVec} {segment : SegPtr} (known : iov[i]? = some v) (held : segments[i]? = some segment) (offset : Int) :
    segmentPass pageSize lbuf iov segments i offset =
      ⟨segmentCopies pageSize lbuf offset [(v,segment)],.ok (nextOffset offset v)⟩ := by
  simp only [segmentPass,readAt_some known,readAt_some held,Run.pure_chain,Run.emit_chain,Run.pure_acts,Run.pure_out,
    segmentCopies,nextOffset]

theorem segment_upto (same : iov.length ≤ segments.length) (count : Nat) (below : count ≤ iov.length) :
    forRange count (segmentPass pageSize lbuf iov segments) 0 =
      ⟨segmentCopies pageSize lbuf 0 ((iov.zip segments).take count),.ok ((iov.take count).foldl nextOffset 0)⟩ := by
  obtain ⟨last,ended,acts,rfl⟩ := @forRange_invariant Act Int Fault count 0
    (fun i acts offset => acts = segmentCopies pageSize lbuf 0 ((iov.zip segments).take i) ∧
      offset = (iov.take i).foldl nextOffset 0)
    (segmentPass pageSize lbuf iov segments) (by
      intro i acts offset inside given
      obtain ⟨rfl,rfl⟩ := given
      have inside : i < iov.length := by omega
      have known : iov[i]? = some iov[i] := List.getElem?_eq_getElem inside
      have held : segments[i]? = some segments[i] := List.getElem?_eq_getElem (by omega)
      have pair : (iov.zip segments)[i]? = some (iov[i],segments[i]) := by
        rw [List.getElem?_zip_eq_some]
        exact ⟨known,held⟩
      have front : ((iov.zip segments).take i).map Prod.fst = iov.take i := by
        rw [List.map_take,List.map_fst_zip same]
      rw [segmentPass_run known held]
      refine ⟨nextOffset ((iov.take i).foldl nextOffset 0) iov[i],rfl,?_,?_⟩
      · rw [List.take_add_one,pair,Option.toList_some,segmentCopies_append,front]
      · rw [List.take_add_one,known,Option.toList_some,List.foldl_append,List.foldl_cons,List.foldl_nil])
    ⟨rfl,rfl⟩
  rw [← acts,← ended]

theorem segment_loop (same : iov.length ≤ segments.length) :
    forRange iov.length (segmentPass pageSize lbuf iov segments) 0 =
      ⟨segmentCopies pageSize lbuf 0 (iov.zip segments),.ok (iov.foldl nextOffset 0)⟩ := by
  have whole := @segment_upto pageSize lbuf iov segments same iov.length (Nat.le_refl _)
  rw [List.take_length,List.take_of_length_le (by simp)] at whole
  exact whole

-- The memcpy of the block at index `k`.
theorem segmentCopies_mem {pageSize lbuf : Nat} {offset : Int} {blocks : List (IoVec × SegPtr)} {act : Act} :
    act ∈ segmentCopies pageSize lbuf offset blocks ↔ ∃ (k : Nat) (v : IoVec) (segment : SegPtr), blocks[k]? = some (v,segment) ∧
      act = .memcpySegment (advance lbuf (((blocks.take k).map Prod.fst).foldl nextOffset offset)) segment (pgOff pageSize v)
        v.iovLen := by
  induction blocks generalizing offset with
  | nil => simp [segmentCopies]
  | cons block rest ih =>
      rw [segmentCopies,List.mem_cons,ih]
      have behind : ∀ k, (((block :: rest).take (k+1)).map Prod.fst).foldl nextOffset offset =
          ((rest.take k).map Prod.fst).foldl nextOffset (nextOffset offset block.1) := fun k => by
        rw [List.take_succ_cons,List.map_cons,List.foldl_cons]
      constructor
      · intro given
        rcases given with here | ⟨k,v,segment,known,later⟩
        · exact ⟨0,block.1,block.2,rfl,here⟩
        · exact ⟨k+1,v,segment,known,by rw [behind]; exact later⟩
      · intro given
        obtain ⟨k,v,segment,known,equal⟩ := given
        cases k with
        | zero => cases known; exact .inl equal
        | succ k => exact .inr ⟨k,v,segment,known,by rw [behind] at equal; exact equal⟩

-- While the bytes fit an int, the running offset is the number of bytes in front.
theorem offset_exact {blocks : List IoVec} (small : done + total blocks ≤ intMax) :
    blocks.foldl nextOffset (done : Int) = ((done + total blocks : Nat) : Int) := by
  induction blocks generalizing done with
  | nil => rfl
  | cons v rest ih =>
      rw [total_cons] at small ⊢
      rw [List.foldl_cons,nextOffset,toInt_addSize (by omega),ih (by omega),Nat.add_assoc]

def detaches (segments : List SegPtr) : List Act := (segments.filter (· ≠ .null)).map .xpmemDetach

theorem detaches_append (first second : List SegPtr) : detaches (first ++ second) = detaches first ++ detaches second := by
  simp [detaches]

theorem detachPass_run {segment : SegPtr} (held : segments[i]? = some segment) :
    detachPass segments i () = ⟨detaches [segment],.ok ()⟩ := by
  by_cases null : segment = .null
  · simp [detachPass,readAt_some held,null,detaches]
    rfl
  · simp [detachPass,readAt_some held,null,detaches]
    rfl

theorem detach_loop (segments : List SegPtr) :
    forRange segments.length (detachPass segments) () = ⟨detaches segments,.ok ()⟩ := by
  obtain ⟨last,ended,acts⟩ := @forRange_invariant Act Unit Fault segments.length ()
    (fun i acts _ => acts = detaches (segments.take i)) (detachPass segments) (by
      rintro i acts _ inside rfl
      have held : segments[i]? = some segments[i] := List.getElem?_eq_getElem inside
      rw [detachPass_run held]
      exact ⟨(),rfl,by rw [List.take_add_one,held,Option.toList_some,detaches_append]⟩)
    rfl
  rw [List.take_length] at acts
  rw [← acts,← ended]

theorem detached_acts {detachNow : Bool} {segments : List SegPtr} :
    ∀ act ∈ (if detachNow then detaches segments else []), ∃ ptr ∈ segments, act = .xpmemDetach ptr := by
  intro act member
  cases detachNow with
  | false => cases member
  | true =>
      obtain ⟨ptr,held,rfl⟩ := List.mem_map.mp member
      exact ⟨ptr,(List.mem_filter.mp held).1,rfl⟩

theorem detached_quiet {detachNow : Bool} {segments : List SegPtr} :
    ∀ act ∈ (if detachNow then detaches segments else []), callKind act = none := by
  intro act member
  obtain ⟨_,_,rfl⟩ := detached_acts act member
  rfl

end

section
variable {attachNow detachNow : Bool} {pageSize lbuf : Nat} {driver : XpmemDriver} {iov : List IoVec} {nblocks j : Nat}
  {s t : XpmemState}

theorem attachSegments_quiet (attachNow : Bool) (pageSize : Nat) (driver : XpmemDriver) (iov : List IoVec) (nblocks : Int) (j : Nat)
    (s : XpmemState) : ∀ act ∈ (attachSegments attachNow pageSize driver iov nblocks j s).acts, isAttach act = true := by
  intro act member
  cases attachNow with
  | false => cases member
  | true =>
      rcases List.mem_cons.mp member with rfl | later
      · rfl
      · obtain ⟨_,_,_,rfl⟩ := forFrom_acts (fun act => ∃ offset size result, act = .xpmemAttach offset size result) attach_calls act later
        rfl

theorem receiver_iteration (attached : (attachSegments attachNow pageSize driver iov nblocks j s).out = .ok t)
    (count : iov.length = nblocks) (held : t.attachedSeglist.length = nblocks) :
    xpmemIteration .receiver attachNow detachNow pageSize lbuf driver iov nblocks j s =
      ⟨.bcast .iov (iovecBytes nblocks) :: ((attachSegments attachNow pageSize driver iov nblocks j s).acts ++
        (segmentCopies pageSize lbuf 0 (iov.zip t.attachedSeglist) ++
          ((if detachNow then detaches t.attachedSeglist else []) ++ [.gather]))),.ok t⟩ := by
  have copied := @segment_loop pageSize lbuf iov t.attachedSeglist (by omega)
  have detached := detach_loop t.attachedSeglist
  rw [count] at copied
  rw [held] at detached
  rw [xpmemIteration,Run.emit_chain,Run.chain_ok attached,copySegments,Int.toNat_natCast,copied]
  cases detachNow with
  | false => rfl
  | true =>
      simp only [detachSegments,if_true,Int.toNat_natCast,detached]
      rfl

theorem receiver_refused (refused : (attachSegments attachNow pageSize driver iov nblocks j s).out = .error fault) :
    xpmemIteration .receiver attachNow detachNow pageSize lbuf driver iov nblocks j s =
      ⟨.bcast .iov (iovecBytes nblocks) :: (attachSegments attachNow pageSize driver iov nblocks j s).acts,.error fault⟩ := by
  rw [xpmemIteration,Run.emit_chain,Run.chain_error refused]

end

section
variable {role : Role} {attachNow detachNow : Nat → Bool} {iters pageSize lbuf bufsize blocksize apid : Nat}
  {driver : XpmemDriver} {iov : Nat → List IoVec} {s : XpmemState}

theorem benchmark_ended (version : 0 ≤ driver.version) (ended : (xpmemLoop role attachNow detachNow iters pageSize lbuf driver iov
      (toInt (bufsize / blocksize)) apid).out = .ok s) :
    benchmarkXpmem role attachNow detachNow iters pageSize lbuf driver iov bufsize blocksize apid =
      ⟨(none,.memset lbuf (initByte role) bufsize) :: (none,.bcast .segid 8) :: ((xpmemLoop role attachNow detachNow iters
        pageSize lbuf driver iov (toInt (bufsize / blocksize)) apid).acts ++ (none,.barrier) :: release s.apid),.ok ()⟩ := by
  have working : ¬ driver.version < 0 := by omega
  simp only [benchmarkXpmem,if_neg working,initBuffer_run,Run.emit_chain,Run.chain_ok ended]
  simp [cleanup,Run.label]

theorem dt_ended (ended : (xpmemLoop role (fun _ => true) (fun _ => true) iters pageSize lbuf driver iov
      ((bufsize / blocksize : Nat) : Int) apid).out = .ok s) :
    (xpmemDt role iters pageSize lbuf driver iov bufsize blocksize apid).acts =
      (none,.bcast .segid 8) :: (none,.memset lbuf (initByte role) bufsize) :: (none,.barrier) ::
        ((xpmemLoop role (fun _ => true) (fun _ => true) iters pageSize lbuf driver iov
          ((bufsize / blocksize : Nat) : Int) apid).acts ++ (release s.apid ++ [(none,.free lbuf),(none,.barrier)])) := by
  have cleaned := congrArg cleanup (show xpmemLoop role (fun _ => true) (fun _ => true) iters pageSize lbuf driver iov
    ((bufsize / blocksize : Nat) : Int) apid = ⟨_,.ok s⟩ by rw [← ended])
  simp only [xpmemDt,initBuffer_run,Run.label,Run.emit_chain,Run.ok_chain]
  rw [cleaned]
  simp [cleanup]

theorem benchmark_stopped (version : 0 ≤ driver.version) (stopped : (xpmemLoop role attachNow detachNow iters pageSize lbuf driver
      iov (toInt (bufsize / blocksize)) apid).out = .error (.cleanup last)) :
    benchmarkXpmem role attachNow detachNow iters pageSize lbuf driver iov bufsize blocksize apid =
      ⟨(none,.memset lbuf (initByte role) bufsize) :: (none,.bcast .segid 8) :: ((xpmemLoop role attachNow detachNow iters
        pageSize lbuf driver iov (toInt (bufsize / blocksize)) apid).acts ++ release last),.ok ()⟩ := by
  have working : ¬ driver.version < 0 := by omega
  simp only [benchmarkXpmem,if_neg working,initBuffer_run,Run.emit_chain,Run.chain_error stopped]
  simp [cleanup,Run.label]

theorem release_mem {e : Stamped} (member : e ∈ release apid) : e = (none,.xpmemRelease apid) := by
  unfold release at member
  split at member
  · exact List.mem_singleton.mp member
  · cases member

-- What the loop issued stays issued, however the function ends.
theorem benchmark_keeps (version : 0 ≤ driver.version) {e : Stamped}
    (member : e ∈ (xpmemLoop role attachNow detachNow iters pageSize lbuf driver iov (toInt (bufsize / blocksize)) apid).acts) :
    e ∈ (benchmarkXpmem role attachNow detachNow iters pageSize lbuf driver iov bufsize blocksize apid).acts := by
  have working : ¬ driver.version < 0 := by omega
  have kept : ∀ body : Run Fault Stamped XpmemState, e ∈ body.acts → e ∈ (cleanup body).acts := by
    intro body inside
    unfold cleanup
    split <;> first | exact List.mem_append_left _ inside | exact inside
  rw [benchmarkXpmem,if_neg working,initBuffer_run]
  apply kept _
  simp only [Run.label,Run.ok_chain,Run.emit_chain,List.mem_append,List.mem_cons]
  exact .inr (.inr (Run.chain_keeps _ _ member))

theorem first_iteration_keeps (some_iteration : 0 < iters) {act : Act} {nblocks : Int}
    (member : act ∈ (xpmemIteration role (attachNow 0) (detachNow 0) pageSize lbuf driver (iov 0) nblocks 0
      (XpmemState.start nblocks apid)).acts) :
    (some 0,act) ∈ (xpmemLoop role attachNow detachNow iters pageSize lbuf driver iov nblocks apid).acts := by
  have issued : (some 0,act) ∈ ((xpmemIteration role (attachNow 0) (detachNow 0) pageSize lbuf driver (iov 0) nblocks 0
      (XpmemState.start nblocks apid)).label (Prod.mk (some 0))).acts := List.mem_map.mpr ⟨act,member,rfl⟩
  obtain ⟨count,rfl⟩ : ∃ count, iters = count + 1 := ⟨iters-1,by omega⟩
  exact Run.chain_keeps _ _ issued

end

end MpidtBench.XpmemLoops
