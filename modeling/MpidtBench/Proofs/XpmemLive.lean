import MpidtBench.Proofs.XpmemBounds

namespace MpidtBench.XpmemLive
open Traced CInteger ScatterGather Pages MpidtBench XpmemLoops XpmemMapped XpmemBounds

-- The addresses xpmem_attach returned and xpmem_detach has not been given since.
def liveStep (live : List Nat) : Act → List Nat
  | .xpmemAttach _ _ (.mapped a) => a.vaddr :: live
  | .xpmemDetach (.mapped a) => live.filter (· ≠ a.vaddr)
  | _ => live

def ReadsLive (live : List Nat) : Act → Prop
  | .memcpySegment _ segment _ _ => ∃ a, segment = .mapped a ∧ a.vaddr ∈ live
  | _ => True

-- Every copy of a run reads through an address that is live when it is made.
def CopiesLive : List Nat → List Act → Prop
  | _,[] => True
  | live,act :: rest => ReadsLive live act ∧ CopiesLive (liveStep live act) rest

def readsLive (live : List Nat) : Act → Bool
  | .memcpySegment _ (.mapped a) _ _ => live.contains a.vaddr
  | .memcpySegment _ _ _ _ => false
  | _ => true

section
variable {live : List Nat} {acts : List Act} {act : Act}

theorem readsLive_iff : readsLive live act = true ↔ ReadsLive live act := by
  cases act with
  | memcpySegment dst segment pgOff len => cases segment <;> simp [readsLive,ReadsLive]
  | _ => exact iff_of_true rfl trivial

instance : Decidable (ReadsLive live act) := decidable_of_iff _ readsLive_iff

instance copiesLiveDecidable : (live : List Nat) → (acts : List Act) → Decidable (CopiesLive live acts)
  | _,[] => isTrue trivial
  | live,act :: rest => @instDecidableAnd (ReadsLive live act) _ inferInstance (copiesLiveDecidable (liveStep live act) rest)

theorem copies_attached {segment : SegPtr} (copies : CopiesLive live acts) (member : .memcpySegment dst segment off len ∈ acts) :
    ∃ a, segment = .mapped a := by
  induction acts generalizing live with
  | nil => cases member
  | cons act rest ih =>
      rcases List.mem_cons.mp member with rfl | later
      · obtain ⟨a,same,_⟩ := copies.1
        exact ⟨a,same⟩
      · exact ih copies.2 later

theorem copiesLive_append (live : List Nat) (first second : List Act) :
    CopiesLive live (first ++ second) ↔ CopiesLive live first ∧ CopiesLive (first.foldl liveStep live) second := by
  induction first generalizing live with
  | nil => simp [CopiesLive]
  | cons act rest ih => rw [List.cons_append,CopiesLive,CopiesLive,ih,and_assoc,List.foldl_cons]

def isCopy : Act → Bool
  | .memcpySegment _ _ _ _ => true
  | _ => false
def changesLive : Act → Bool
  | .xpmemAttach _ _ _ => true
  | .xpmemDetach _ => true
  | _ => false

theorem live_unchanged (still : ∀ act ∈ acts, changesLive act = false) : acts.foldl liveStep live = live := by
  induction acts generalizing live with
  | nil => rfl
  | cons act rest ih =>
      have same : liveStep live act = live := by
        have quiet := still act (by simp)
        cases act <;> first | rfl | cases quiet
      rw [List.foldl_cons,same]
      exact ih fun other member => still other (List.mem_cons_of_mem _ member)

theorem copies_live_of_none (none : ∀ act ∈ acts, isCopy act = false) : CopiesLive live acts := by
  induction acts generalizing live with
  | nil => trivial
  | cons act rest ih =>
      refine ⟨?_,ih fun other member => none other (List.mem_cons_of_mem _ member)⟩
      have other := none act (by simp)
      cases act <;> trivial

theorem copies_live_iff (still : ∀ act ∈ acts, changesLive act = false) :
    CopiesLive live acts ↔ ∀ act ∈ acts, ReadsLive live act := by
  induction acts with
  | nil => simp [CopiesLive]
  | cons act rest ih =>
      have same : liveStep live act = live := @live_unchanged live [act] fun other member => by
        rw [List.mem_singleton.mp member]
        exact still act (by simp)
      rw [CopiesLive,same,ih fun other member => still other (List.mem_cons_of_mem _ member),List.forall_mem_cons]

theorem attach_live (attaches : ∀ act ∈ acts, isAttach act = true) (made : a ∈ live ∨ ∃ offset size segment,
    .xpmemAttach offset size (.mapped segment) ∈ acts ∧ segment.vaddr = a) : a ∈ acts.foldl liveStep live := by
  induction acts generalizing live with
  | nil =>
      rcases made with held | ⟨_,_,_,member,_⟩
      · exact held
      · cases member
  | cons act rest ih =>
      refine ih (fun other member => attaches other (List.mem_cons_of_mem _ member)) ?_
      rcases made with held | ⟨offset,size,segment,member,equal⟩
      · left
        have attach := attaches act (by simp)
        cases act with
        | xpmemAttach offset size result => cases result <;> simp [liveStep,held]
        | xpmemGet apid => exact held
        | _ => cases attach
      · rcases List.mem_cons.mp member with rfl | later
        · left; simp [liveStep,equal]
        · exact .inr ⟨offset,size,segment,later,equal⟩

-- What the detach loop was given is dead behind it.
theorem detached_dead (segments : List SegPtr) (dead : a ∉ live ∨ ∃ segment, .mapped segment ∈ segments ∧ segment.vaddr = a) :
    a ∉ (detaches segments).foldl liveStep live := by
  induction segments generalizing live with
  | nil =>
      rcases dead with gone | ⟨_,member,_⟩
      · exact gone
      · cases member
  | cons head rest ih =>
      have parts : detaches (head :: rest) = detaches [head] ++ detaches rest := detaches_append [head] rest
      rw [parts,List.foldl_append]
      apply ih
      rcases dead with gone | ⟨segment,member,equal⟩
      · left
        cases head <;> simp [detaches,liveStep,gone]
      · rcases List.mem_cons.mp member with rfl | later
        · left; simp [detaches,liveStep,equal]
        · exact .inr ⟨segment,later,equal⟩

end
section
variable {pageSize base nblocks blocksize lbuf : Nat} {driver : XpmemDriver} {s t : XpmemState} {live : List Nat}

theorem segment_copies_still {offset : Int} {blocks : List (IoVec × SegPtr)} :
    ∀ act ∈ segmentCopies pageSize lbuf offset blocks, changesLive act = false := by
  intro act member
  obtain ⟨_,_,_,_,rfl⟩ := segmentCopies_mem.mp member
  rfl

-- Blocks below the page size: the page of the last block is remembered.
theorem last_page (layout : Layout pageSize base nblocks blocksize) (small : blocksize < pageSize) (some_blocks : 0 < nblocks)
    (last : Nat) : lastPage pageSize last (initIov base nblocks blocksize) =
      base + (nblocks-1) * blocksize / pageSize * pageSize := by
  have inside : nblocks - 1 < nblocks := by omega
  have known := block_at layout inside
  have whole : initIov base nblocks blocksize = (initIov base nblocks blocksize).take (nblocks-1) ++
      [⟨base + (nblocks-1) * blocksize,blocksize⟩] := by
    rw [← take_succ_of known,Nat.sub_add_cancel some_blocks]
    exact (List.take_of_length_le (Nat.le_of_eq initIov_length)).symm
  rw [whole,lastPage_append]
  change nextPage pageSize _ ⟨base + (nblocks-1) * blocksize,blocksize⟩ = _
  rw [nextPage,if_pos small,page_of layout inside]

-- No block is served by what an earlier iteration left when the first one is not.
theorem all_fresh {acts : List Act} {attach : Nat → Nat → Nat → Option Nat} (layout : Layout pageSize base nblocks blocksize)
    (attached : Attached pageSize attach (initIov base nblocks blocksize) s nblocks acts t)
    (moved : blocksize < pageSize → s.lastpagebaseAddr ≠ base) (inside : k < nblocks) :
    ∃ segment, t.attachedSeglist[k]? = some segment ∧ Fresh acts (request pageSize ⟨base + k * blocksize,blocksize⟩) segment := by
  obtain ⟨v,segment,known,held,choice⟩ := attached.segments k inside
  obtain ⟨_,rfl⟩ := block_index layout known
  rcases choice with fresh | ⟨small,_,same⟩
  · exact ⟨segment,held,fresh⟩
  · have first := block_at layout (Nat.lt_of_le_of_lt (Nat.zero_le k) inside)
    have page := same ⟨base + 0 * blocksize,blocksize⟩
      (List.mem_iff_getElem?.mpr ⟨0,by rw [List.getElem?_take_of_lt (by omega)]; exact first⟩) small
    rw [page_of layout (by omega)] at page
    exact absurd (by simpa using page.symm) (moved small)

def Alive (live : List Nat) (s : XpmemState) : Prop := ∀ segment ∈ s.attachedSeglist, ∃ a, segment = .mapped a ∧ a.vaddr ∈ live

theorem alive_copies (alive : Alive live t) (list : Attachable pageSize driver (initIov base nblocks blocksize))
    (holding : Holding pageSize (initIov base nblocks blocksize) (j+1) t) :
    CopiesLive live (segmentCopies pageSize lbuf 0 ((initIov base nblocks blocksize).zip t.attachedSeglist)) := by
  apply (copies_live_iff segment_copies_still).mpr
  intro act member
  obtain ⟨k,v,segment,_,held,rfl⟩ := (copies_at list.offsets holding.length).mp member
  exact alive segment (List.mem_of_getElem? held)

theorem closing_live (detachNow : Bool) (segments : List SegPtr) :
    CopiesLive live ((if detachNow then detaches segments else []) ++ [.gather]) := by
  apply copies_live_of_none
  intro act member
  rcases List.mem_append.mp member with detached | gather
  · obtain ⟨_,_,rfl⟩ := detached_acts act detached
    rfl
  · rw [List.mem_singleton.mp gather]; rfl

-- An iteration that attaches every page it reads.
theorem iteration_live (detachNow : Bool) (layout : Layout pageSize base nblocks blocksize)
    (list : Attachable pageSize driver (initIov base nblocks blocksize))
    (holding : Holding pageSize (initIov base nblocks blocksize) j s) (moved : blocksize < pageSize → s.lastpagebaseAddr ≠ base) :
    ∃ t, (xpmemIteration .receiver true detachNow pageSize lbuf driver (initIov base nblocks blocksize) nblocks j s).out = .ok t ∧
      Holding pageSize (initIov base nblocks blocksize) (j+1) t ∧
      t.lastpagebaseAddr = lastPage pageSize s.lastpagebaseAddr (initIov base nblocks blocksize) ∧
      CopiesLive live (xpmemIteration .receiver true detachNow pageSize lbuf driver (initIov base nblocks blocksize) nblocks j s).acts ∧
      (detachNow = false → Alive ((xpmemIteration .receiver true detachNow pageSize lbuf driver (initIov base nblocks blocksize)
        nblocks j s).acts.foldl liveStep live) t) := by
  obtain ⟨t,ended,next,attached⟩ := attach_holding list.page (list.granted j) holding
  have quiet := attachSegments_quiet true pageSize driver (initIov base nblocks blocksize) nblocks j s
  rw [initIov_length] at ended attached
  have page := attached.last
  rw [List.take_of_length_le (Nat.le_of_eq initIov_length)] at page
  have alive : Alive ((attachSegments true pageSize driver (initIov base nblocks blocksize) nblocks j s).acts.foldl liveStep live) t := by
    intro segment member
    obtain ⟨k,held⟩ := List.mem_iff_getElem?.mp member
    have inside : k < nblocks := by
      have bound := (List.getElem?_eq_some_iff.mp held).1
      rwa [next.length,initIov_length] at bound
    obtain ⟨other,there,vaddr,rfl,made⟩ := all_fresh layout attached moved inside
    rw [held] at there
    cases there
    have issued := List.mem_cons_of_mem (.xpmemGet (driver.get j)) made
    exact ⟨_,rfl,attach_live quiet (.inr ⟨_,_,_,issued,rfl⟩)⟩
  rw [receiver_iteration ended initIov_length (next.length.trans initIov_length)]
  refine ⟨t,rfl,next,page,⟨trivial,?_⟩,?_⟩
  · rw [copiesLive_append,copiesLive_append]
    refine ⟨copies_live_of_none ?_,alive_copies alive list next,closing_live _ _⟩
    intro act member
    have attach := quiet act member
    cases act <;> first | rfl | cases attach
  · intro kept
    rw [kept,List.foldl_cons,List.foldl_append,List.foldl_append,live_unchanged segment_copies_still]
    exact alive

-- An iteration that reads through what an earlier one attached.
theorem reuse_live (detachNow : Bool) (list : Attachable pageSize driver (initIov base nblocks blocksize))
    (holding : Holding pageSize (initIov base nblocks blocksize) (j+1) s) (alive : Alive live s) :
    (xpmemIteration .receiver false detachNow pageSize lbuf driver (initIov base nblocks blocksize) nblocks i s).out = .ok s ∧
      CopiesLive live (xpmemIteration .receiver false detachNow pageSize lbuf driver (initIov base nblocks blocksize) nblocks i s).acts ∧
      (detachNow = false → Alive ((xpmemIteration .receiver false detachNow pageSize lbuf driver (initIov base nblocks blocksize)
        nblocks i s).acts.foldl liveStep live) s) := by
  have nothing : attachSegments false pageSize driver (initIov base nblocks blocksize) nblocks i s = pure s := rfl
  rw [receiver_iteration (congrArg Run.out nothing) initIov_length (holding.length.trans initIov_length),nothing]
  refine ⟨rfl,⟨trivial,?_⟩,?_⟩
  · rw [Run.pure_acts,List.nil_append,copiesLive_append]
    exact ⟨alive_copies alive list holding,closing_live _ _⟩
  · intro kept
    rw [kept,List.foldl_cons,List.foldl_append,List.foldl_append,live_unchanged segment_copies_still]
    exact alive

-- All blocks in the first page.
structure OnePage (pageSize base nblocks blocksize : Nat) : Prop extends Layout pageSize base nblocks blocksize where
  below : blocksize < pageSize
  some_blocks : 0 < nblocks
  single : nblocks * blocksize ≤ pageSize

theorem only_page (one : OnePage pageSize base nblocks blocksize) {v : IoVec} (member : v ∈ initIov base nblocks blocksize) :
    pageBase pageSize v.iovBase = base := by
  obtain ⟨i,known⟩ := List.mem_iff_getElem?.mp member
  obtain ⟨inside,rfl⟩ := block_index one.toLayout known
  have bound := offset_below inside blocksize
  have bytes := one.bytes
  have single := one.single
  change pageBase pageSize (base + i * blocksize) = base
  rw [page_of one.toLayout inside,Nat.div_eq_of_lt (by omega)]
  simp

theorem page_after (one : OnePage pageSize base nblocks blocksize) (last : Nat) (some_block : 0 < k) :
    lastPage pageSize last ((initIov base nblocks blocksize).take k) = base := by
  have pages : ∀ w ∈ (initIov base nblocks blocksize).take k, nextPage pageSize last w = base ∧
      pageBase pageSize w.iovBase = base := by
    intro w member
    have present := List.mem_of_mem_take member
    have page := only_page one present
    obtain ⟨i,known⟩ := List.mem_iff_getElem?.mp present
    obtain ⟨_,rfl⟩ := block_index one.toLayout known
    exact ⟨by rw [nextPage,if_pos one.below]; exact page,page⟩
  have first := block_at one.toLayout one.some_blocks
  cases front : (initIov base nblocks blocksize).take k with
  | nil =>
      have known : ((initIov base nblocks blocksize).take k)[0]? = some ⟨base + 0 * blocksize,blocksize⟩ := by
        rw [List.getElem?_take_of_lt some_block]; exact first
      rw [front] at known
      cases known
  | cons w rest =>
      rw [front] at pages
      rw [lastPage,List.foldl_cons,(pages w (by simp)).1]
      exact lastPage_same fun u member _ => (pages u (List.mem_cons_of_mem _ member)).2

-- Entered with that page remembered, the attach loop attaches nothing.
theorem nothing_asked {acts : List Act} {attach : Nat → Nat → Nat → Option Nat} (one : OnePage pageSize base nblocks blocksize)
    (attached : Attached pageSize attach (initIov base nblocks blocksize) s nblocks acts t) (same : s.lastpagebaseAddr = base) :
    acts = [] ∧ ∀ k < nblocks, t.attachedSeglist[k]? = some s.currAttachPtr := by
  have empty : acts = [] := by
    apply List.eq_nil_iff_forall_not_mem.mpr
    intro act member
    obtain ⟨k,v,_,known,asks,_⟩ := attached.asked act member
    have page := only_page one (List.mem_of_getElem? known)
    obtain ⟨_,rfl⟩ := block_index one.toLayout known
    apply asks one.below
    rw [page,same]
    exact lastPage_same fun w member _ => only_page one (List.mem_of_mem_take member)
  refine ⟨empty,fun k inside => ?_⟩
  obtain ⟨v,segment,_,held,⟨_,_,made⟩ | ⟨_,rfl,_⟩⟩ := attached.segments k inside
  · rw [empty] at made; cases made
  · exact held

-- Entered with another one remembered, it attaches that page for block 0 and hands the
-- same pointer to every block.
theorem one_asked {acts : List Act} {attach : Nat → Nat → Nat → Option Nat} (one : OnePage pageSize base nblocks blocksize)
    (attached : Attached pageSize attach (initIov base nblocks blocksize) s nblocks acts t) (apart : s.lastpagebaseAddr ≠ base) :
    ∃ a, t.currAttachPtr = .mapped a ∧ .mapped a ∈ t.attachedSeglist ∧ t.lastpagebaseAddr = base := by
  have first := block_at one.toLayout one.some_blocks
  have unique : ∀ act ∈ acts, ∃ offset size, act = .xpmemAttach offset size
      (answer pageSize attach 0 ⟨base + 0 * blocksize,blocksize⟩) := by
    intro act member
    obtain ⟨k,v,_,known,asks,rfl⟩ := attached.asked act member
    obtain ⟨_,rfl⟩ := block_index one.toLayout known
    have page := only_page one (List.mem_of_getElem? known)
    cases k with
    | zero => exact ⟨_,_,rfl⟩
    | succ k =>
        exact absurd ((page_after one _ (Nat.succ_pos k)).trans page.symm) (asks one.below)
  have no_carry : ∀ k, 0 < k → ¬ ∀ w ∈ (initIov base nblocks blocksize).take k, w.iovLen < pageSize →
      pageBase pageSize w.iovBase = s.lastpagebaseAddr := by
    intro k some_block carried
    have member : (⟨base + 0 * blocksize,blocksize⟩ : IoVec) ∈ (initIov base nblocks blocksize).take k :=
      List.mem_iff_getElem?.mpr ⟨0,by rw [List.getElem?_take_of_lt some_block]; exact first⟩
    exact apart ((carried _ member one.below).symm.trans (only_page one (List.mem_of_mem_take member)))
  obtain ⟨_,segment,_,held,⟨vaddr,rfl,made⟩ | ⟨_,_,carried⟩⟩ := attached.segments 0 one.some_blocks
  · rcases attached.curr with ⟨_,carried⟩ | ⟨other,mapped,issued⟩
    · exact absurd carried (no_carry nblocks one.some_blocks)
    · obtain ⟨_,_,equal⟩ := unique _ made
      obtain ⟨_,_,same⟩ := unique _ issued
      injection equal with _ _ equal
      injection same with _ _ same
      refine ⟨_,mapped,?_,attached.last.trans (page_after one _ one.some_blocks)⟩
      rw [← mapped,same,← equal]
      exact List.mem_of_getElem? held
  · exact absurd carried (no_carry 1 Nat.one_pos)

-- The second iteration copies through the pointer the first one detached.
theorem second_stale (one : OnePage pageSize base nblocks blocksize)
    (list : Attachable pageSize driver (initIov base nblocks blocksize)) (apid : Nat) :
    ∃ t, (xpmemIteration .receiver true true pageSize lbuf driver (initIov base nblocks blocksize) nblocks 0
        (XpmemState.start nblocks apid)).out = .ok t ∧
      ¬ CopiesLive live ((xpmemIteration .receiver true true pageSize lbuf driver (initIov base nblocks blocksize) nblocks 0
          (XpmemState.start nblocks apid)).acts ++
        (xpmemIteration .receiver true true pageSize lbuf driver (initIov base nblocks blocksize) nblocks 1 t).acts) := by
  have start := @start_holding pageSize (initIov base nblocks blocksize) apid
  rw [initIov_length] at start
  obtain ⟨t,ended,held,attached⟩ := attach_holding list.page (list.granted 0) start
  obtain ⟨u,again,next,reattached⟩ := attach_holding list.page (list.granted 1) held
  rw [initIov_length] at ended attached again reattached
  obtain ⟨a,curr,recorded,page⟩ := one_asked one attached (Nat.ne_of_lt one.nonnull)
  obtain ⟨nothing,carried⟩ := nothing_asked one reattached page
  refine ⟨t,by rw [receiver_iteration ended initIov_length (held.length.trans initIov_length)],?_⟩
  rw [receiver_iteration ended initIov_length (held.length.trans initIov_length),
    receiver_iteration again initIov_length (next.length.trans initIov_length),copiesLive_append]
  intro given
  obtain ⟨_,_,second⟩ := given
  rw [copiesLive_append,copiesLive_append,copies_live_iff segment_copies_still] at second
  obtain ⟨_,reads,_⟩ := second
  have first := block_at one.toLayout one.some_blocks
  have stale := reads _ ((copies_at list.offsets next.length).mpr ⟨0,_,_,first,carried 0 one.some_blocks,rfl⟩)
  obtain ⟨b,mapped,alive⟩ := stale
  obtain rfl : a = b := by
    rw [show t.currAttachPtr = .mapped b from mapped] at curr
    injection curr with same
    exact same.symm
  have only_get : (attachSegments true pageSize driver (initIov base nblocks blocksize) nblocks 1 t).acts =
      [.xpmemGet (driver.get 1)] := by
    simp only [attachSegments,if_true,Run.emit_chain,Int.toNat_natCast]
    rw [nothing]
  rw [only_get] at alive
  simp only [List.foldl_cons,List.foldl_append,List.foldl_nil,if_true] at alive
  exact detached_dead t.attachedSeglist (.inr ⟨a,recorded,rfl⟩) alive

theorem stamped_acts (stamp : τ) (run : Run ε α β) : (run.label (Prod.mk stamp)).acts.map Prod.snd = run.acts := by
  simp

-- The remembered page never is that of the first block, or is but once.
theorem loop_live (layout : Layout pageSize base nblocks blocksize) (some_blocks : 0 < nblocks)
    (list : Attachable pageSize driver (initIov base nblocks blocksize)) (iters apid : Nat)
    (good : iters ≤ 1 ∨ ¬ blocksize < pageSize ∨ pageSize ≤ (nblocks-1) * blocksize) :
    CopiesLive live ((xpmemLoop .receiver (fun _ => true) (fun _ => true) iters pageSize lbuf driver
      (fun _ => initIov base nblocks blocksize) nblocks apid).acts.map Prod.snd) := by
  have start := @start_holding pageSize (initIov base nblocks blocksize) apid
  rw [initIov_length] at start
  obtain ⟨_,_,_,_,live⟩ := @forRange_invariant Stamped XpmemState Fault iters (XpmemState.start nblocks apid)
    (fun j acts s => Holding pageSize (initIov base nblocks blocksize) j s ∧
      (blocksize < pageSize → s.lastpagebaseAddr = if j = 0 then 0 else base + (nblocks-1) * blocksize / pageSize * pageSize) ∧
      CopiesLive live (acts.map Prod.snd))
    (fun j s => (xpmemIteration .receiver true true pageSize lbuf driver (initIov base nblocks blocksize) nblocks j s).label
      (Prod.mk (some j))) (by
      intro j acts s below given
      obtain ⟨holding,page,copied⟩ := given
      have moved : blocksize < pageSize → s.lastpagebaseAddr ≠ base := by
        intro small
        rw [page small]
        have nonnull := layout.nonnull
        split
        · omega
        · rename_i later
          have pages : pageSize ≤ (nblocks-1) * blocksize := by
            rcases good with once | large | pages
            · omega
            · exact absurd small large
            · exact pages
          have quotient : 1 ≤ (nblocks-1) * blocksize / pageSize := Nat.div_pos pages layout.positive
          have product := Nat.mul_le_mul_right pageSize quotient
          have positive := layout.positive
          omega
      obtain ⟨t,ended,next,last,copies,_⟩ := @iteration_live pageSize base nblocks blocksize lbuf driver s
        ((acts.map Prod.snd).foldl liveStep live) j true layout list holding moved
      refine ⟨t,ended,next,?_,?_⟩
      · intro small
        rw [last,last_page layout small some_blocks,if_neg (Nat.succ_ne_zero j)]
      · rw [List.map_append,copiesLive_append]
        refine ⟨copied,?_⟩
        rw [stamped_acts]
        exact copies)
    ⟨start,fun _ => rfl,trivial⟩
  exact live

-- Attached in iteration 0 and not before the last one detached.
theorem cached_live (layout : Layout pageSize base nblocks blocksize)
    (list : Attachable pageSize driver (initIov base nblocks blocksize)) (iters apid : Nat) :
    CopiesLive live ((xpmemLoop .receiver (fun j => useCache && j == 0) (fun j => !useCache || j+1 == iters) iters pageSize lbuf driver
      (fun _ => initIov base nblocks blocksize) nblocks apid).acts.map Prod.snd) := by
  have start := @start_holding pageSize (initIov base nblocks blocksize) apid
  rw [initIov_length] at start
  obtain ⟨_,_,_,_,_,live⟩ := @forRange_invariant Stamped XpmemState Fault iters (XpmemState.start nblocks apid)
    (fun j acts s => Holding pageSize (initIov base nblocks blocksize) j s ∧ (j = 0 → s.lastpagebaseAddr = 0) ∧
      (0 < j → j < iters → Alive ((acts.map Prod.snd).foldl liveStep live) s) ∧ CopiesLive live (acts.map Prod.snd))
    (fun j s => (xpmemIteration .receiver (useCache && j == 0) (!useCache || j+1 == iters) pageSize lbuf driver
      (initIov base nblocks blocksize) nblocks j s).label (Prod.mk (some j))) (by
      intro j acts s below given
      obtain ⟨holding,null,alive,copies⟩ := given
      have kept : j + 1 < iters → (!useCache || j+1 == iters) = false := fun more => by simp [useCache,Nat.ne_of_lt more]
      cases j with
      | zero =>
          obtain ⟨t,ended,next,_,reads,held⟩ := @iteration_live pageSize base nblocks blocksize lbuf driver s
            ((acts.map Prod.snd).foldl liveStep live) 0 (!useCache || 0+1 == iters) layout list holding
            (fun _ => by rw [null rfl]; exact Nat.ne_of_lt layout.nonnull)
          refine ⟨t,ended,next,nofun,fun _ more => ?_,?_⟩
          · rw [List.map_append,stamped_acts,List.foldl_append]
            exact held (kept more)
          · rw [List.map_append,copiesLive_append,stamped_acts]
            exact ⟨copies,reads⟩
      | succ j =>
          obtain ⟨ended,reads,held⟩ := @reuse_live pageSize base nblocks blocksize lbuf driver s
            ((acts.map Prod.snd).foldl liveStep live) j (j+1) (!useCache || j+1+1 == iters) list holding (alive (Nat.succ_pos j) below)
          refine ⟨s,ended,⟨holding.length,holding.curr,fun _ => holding.segments (Nat.succ_pos j)⟩,nofun,fun _ more => ?_,?_⟩
          · rw [List.map_append,stamped_acts,List.foldl_append]
            exact held (kept more)
          · rw [List.map_append,copiesLive_append,stamped_acts]
            exact ⟨copies,reads⟩)
    ⟨start,fun _ => rfl,nofun,trivial⟩
  exact live

theorem loop_stale (one : OnePage pageSize base nblocks blocksize)
    (list : Attachable pageSize driver (initIov base nblocks blocksize)) (apid : Nat) (again : 1 < iters) :
    ¬ CopiesLive [] ((xpmemLoop .receiver (fun _ => true) (fun _ => true) iters pageSize lbuf driver
      (fun _ => initIov base nblocks blocksize) nblocks apid).acts.map Prod.snd) := by
  obtain ⟨t,ended,stale⟩ := @second_stale pageSize base nblocks blocksize lbuf driver [] one list apid
  let body : Nat → XpmemState → Run Fault Stamped XpmemState := fun j s =>
    (xpmemIteration .receiver true true pageSize lbuf driver (initIov base nblocks blocksize) nblocks j s).label (Prod.mk (some j))
  have first : forRange 1 body (XpmemState.start nblocks apid) = ⟨(body 0 (XpmemState.start nblocks apid)).acts,.ok t⟩ := by
    have ran : (body 0 (XpmemState.start nblocks apid)).out = .ok t := ended
    simp only [forRange,forFrom,Run.chain_ok ran,Run.pure_acts,Run.pure_out,List.append_nil]
  have whole := @forRange_resume _ _ _ 1 (XpmemState.start nblocks apid) t iters body (by rw [first]) again
  obtain ⟨more,extended⟩ := Run.chain_extends (body 1 t) (forFrom body (1+1) (iters-(1+1)))
  change ¬ CopiesLive [] ((forRange iters body _).acts.map Prod.snd)
  rw [whole,extended,first,← List.append_assoc,List.map_append,copiesLive_append,List.map_append]
  intro given
  obtain ⟨live,_⟩ := given
  apply stale
  simpa only [body,Run.label_acts,List.map_map,Function.comp_def,List.map_id'] using live

end

theorem release_live (apid : Nat) (live : List Nat) : CopiesLive live ((release apid).map Prod.snd) := by
  unfold release
  split
  · exact ⟨trivial,trivial⟩
  · trivial

-- Neither the memset and the Bcast in front of the loop nor what follows it matters.
theorem benchmark_live (version : 0 ≤ driver.version) (ended : (xpmemLoop role attachNow detachNow iters pageSize lbuf driver iov
      (toInt (bufsize / blocksize)) apid).out = .ok s) (live : List Nat) :
    CopiesLive live ((benchmarkXpmem role attachNow detachNow iters pageSize lbuf driver iov bufsize blocksize apid).acts.map Prod.snd) ↔
      CopiesLive live ((xpmemLoop role attachNow detachNow iters pageSize lbuf driver iov
        (toInt (bufsize / blocksize)) apid).acts.map Prod.snd) := by
  rw [benchmark_ended version ended,List.map_cons,List.map_cons,List.map_append,CopiesLive,CopiesLive,copiesLive_append]
  constructor
  · intro whole
    exact whole.2.2.1
  · exact fun copied => ⟨trivial,trivial,copied,trivial,release_live _ _⟩

theorem xpmemDt_live (ended : (xpmemLoop role (fun _ => true) (fun _ => true) iters pageSize lbuf driver iov
      ((bufsize / blocksize : Nat) : Int) apid).out = .ok s) :
    CopiesLive [] ((xpmemDt role iters pageSize lbuf driver iov bufsize blocksize apid).acts.map Prod.snd) ↔
      CopiesLive [] ((xpmemLoop role (fun _ => true) (fun _ => true) iters pageSize lbuf driver iov
        ((bufsize / blocksize : Nat) : Int) apid).acts.map Prod.snd) := by
  have rest : ∀ live, CopiesLive live ((release s.apid ++ [(none,Act.free lbuf),(none,Act.barrier)]).map Prod.snd) := fun live => by
    rw [List.map_append,copiesLive_append]
    exact ⟨release_live _ _,trivial,trivial,trivial⟩
  rw [dt_ended ended,List.map_cons,List.map_cons,List.map_cons,List.map_append,CopiesLive,CopiesLive,CopiesLive,copiesLive_append]
  constructor
  · intro whole
    exact whole.2.2.2.1
  · exact fun copied => ⟨trivial,trivial,trivial,copied,rest _⟩

-- Blocks that tile a page: reading goes wrong just when all of them lie in one page, below its
-- size, and there is a second iteration.
theorem loop_live_iff {pageSize base nblocks blocksize lbuf : Nat} {driver : XpmemDriver} (layout : Layout pageSize base nblocks blocksize)
    (some_blocks : 0 < nblocks) (pages : blocksize ∣ pageSize) (list : Attachable pageSize driver (initIov base nblocks blocksize))
    (iters apid : Nat) :
    CopiesLive [] ((xpmemLoop .receiver (fun _ => true) (fun _ => true) iters pageSize lbuf driver
      (fun _ => initIov base nblocks blocksize) nblocks apid).acts.map Prod.snd) ↔
      iters ≤ 1 ∨ blocksize = pageSize ∨ pageSize < nblocks * blocksize := by
  have order := Nat.le_of_dvd layout.positive pages
  constructor
  · intro live
    apply Classical.byContradiction
    intro bad
    simp only [not_or] at bad
    have one : OnePage pageSize base nblocks blocksize := ⟨layout,by omega,some_blocks,by omega⟩
    exact loop_stale one list apid (by omega) live
  · intro good
    apply loop_live layout some_blocks list iters apid
    rcases good with once | equal | more
    · exact .inl once
    · exact .inr (.inl (by omega))
    · right; right
      obtain ⟨count,rfl⟩ := pages
      rw [Nat.mul_comm blocksize count] at more ⊢
      have fewer := Nat.lt_of_mul_lt_mul_right more
      exact Nat.mul_le_mul_right _ (by omega)

-- The receivers of bench.c and of xpmem_dt.c, with every attach call succeeding.
theorem xpmem_copies_live {pageSize base bufsize blocksize : Nat} (power : ∃ k < 63, pageSize = 2 ^ k)
    (aligned : pageSize ∣ base) (nonnull : 0 < base) (fits : base + bufsize ≤ sizeMod) (bytes : 0 < blocksize)
    (filled : 0 < bufsize) (small : bufsize ≤ intMax) (divides : blocksize ∣ bufsize) (pages : blocksize ∣ pageSize)
    {driver : XpmemDriver} (version : 0 ≤ driver.version)
    (granted : ∀ j i offset size, (driver.attach j i offset size).isSome) (iters recvBuf apid : Nat) :
    (CopiesLive [] ((benchmarkXpmemNocache .receiver iters pageSize recvBuf driver
      (fun _ => initIov base (bufsize / blocksize) blocksize) bufsize blocksize apid).acts.map Prod.snd) ↔
      iters ≤ 1 ∨ blocksize = pageSize ∨ pageSize < bufsize) ∧
    (CopiesLive [] ((xpmemDt .receiver iters pageSize recvBuf driver
      (fun _ => initIov base (bufsize / blocksize) blocksize) bufsize blocksize apid).acts.map Prod.snd) ↔
      iters ≤ 1 ∨ blocksize = pageSize ∨ pageSize < bufsize) := by
  have whole := Nat.div_mul_cancel divides
  have layout : Layout pageSize base (bufsize / blocksize) blocksize :=
    ⟨power,aligned,nonnull,bytes,by rw [whole]; exact small,by rw [whole]; exact fits⟩
  have some_blocks : 0 < bufsize / blocksize := Nat.div_pos (Nat.le_of_dvd filled divides) bytes
  have list := attachable layout (fits_requests layout (.inl pages)) (fun j i offset size _ => granted j i offset size)
  obtain ⟨s,ended,_⟩ := @loop_exact (fun _ => true) (fun _ => true) pageSize recvBuf driver _ list rfl iters apid
  have loop := @loop_live_iff pageSize base _ blocksize recvBuf driver layout some_blocks pages list iters apid
  rw [initIov_length] at ended
  rw [whole] at loop
  have narrow : toInt (bufsize / blocksize) = ((bufsize / blocksize : Nat) : Int) := nblocks_exact bufsize blocksize small
  refine ⟨?_,(xpmemDt_live ended).trans loop⟩
  rw [← narrow] at ended loop
  exact (benchmark_live version ended []).trans loop

theorem xpmem_copies_live_four_pages : CopiesLive [] ((benchmarkXpmemNocache .receiver 110 4096 65536
    ⟨1,fun _ => 7,fun _ _ offset _ => some (1048576 + offset)⟩ (fun _ => initIov 16384 (16384 / 1024) 1024) 16384 1024
    0).acts.map Prod.snd) := by
  have live := @xpmem_copies_live 4096 16384 16384 1024 ⟨12,by decide,rfl⟩ (by decide) (by decide) (by decide) (by decide)
    (by decide) (by decide) (by decide) (by decide) ⟨1,fun _ => 7,fun _ _ offset _ => some (1048576 + offset)⟩ (by decide)
    (fun _ _ _ _ => rfl) 110 65536 0
  rw [live.1]
  exact .inr (.inr (by decide))

-- A buffer of half a page: from the second iteration on nothing is attached.
theorem xpmem_copies_stale : ¬ CopiesLive [] ((benchmarkXpmemNocache .receiver 110 4096 65536
    ⟨1,fun _ => 7,fun _ _ offset _ => some (1048576 + offset)⟩ (fun _ => initIov 16384 2 1024) 2048 1024 0).acts.map Prod.snd) := by
  have layout : Layout 4096 16384 2 1024 := ⟨⟨12,by decide,rfl⟩,by decide,by decide,by decide,by decide,by decide⟩
  have list := @attachable 4096 16384 2 1024 ⟨1,fun _ => 7,fun _ _ offset _ => some (1048576 + offset)⟩ layout
    (fits_requests layout (.inl (by decide))) (fun _ _ _ _ _ => rfl)
  have narrow : ((2 : Nat) : Int) = toInt (2048 / 1024) := by decide
  have stale := @loop_stale 4096 16384 2 1024 65536 _ 110 ⟨layout,by decide,by decide,by decide⟩ list 0 (by decide)
  obtain ⟨s,ended,_⟩ := @loop_exact (fun _ => true) (fun _ => true) 4096 65536 _ _ list rfl 110 0
  rw [initIov_length,narrow] at ended
  rw [narrow] at stale
  have same := benchmark_live (by decide) ended []
  rw [← same] at stale
  exact stale

end MpidtBench.XpmemLive
