import MpidtBench.Library.Progress
import MpidtBench.Library.Related
import MpidtBench.Model.Standalone
import MpidtBench.Proofs.XpmemFailure
import MpidtBench.Proofs.XpmemLive

namespace MpidtBench.AttachSplits
open Traced CInteger ScatterGather Collective Pages MpidtBench XpmemLoops XpmemFailure XpmemLive

def attachNow : Bench → Nat → Bool
  | .xpmemCached => fun j => useCache && j == 0
  | _ => fun _ => true

-- A copy reads the pages of its attachment, where they show the sender's buffer, and writes the
-- rank's own; a process_vm_readv is given entries that its lists have, and a Bcast a count that
-- is none below 0.
def confined (pageSize lbuf source bufsize : Nat) : Act → Bool
  | .memcpySegment dst (.mapped a) pgOff len =>
      decide (lbuf ≤ dst ∧ dst + len ≤ lbuf + bufsize) &&
        decide (0 ≤ pgOff ∧ pgOff + len ≤ covered pageSize a.size) &&
        decide (source ≤ a.offset + pgOff ∧ a.offset + pgOff + len ≤ source + bufsize)
  | .processVmReadv liov riov iovOff currBlks _ =>
      decide (0 ≤ iovOff ∧ iovOff + currBlks ≤ liov.length ∧ iovOff + currBlks ≤ riov.length)
  | .bcast _ count => decide (0 ≤ count)
  | _ => true

-- The runs that no call stops: `Run` goes on behind an access to NULL, a copy from (void *)-1, from
-- a page that is detached or past a page, and behind a Bcast of a negative count, and the program
-- does not.
structure Faultless (pageSize lbuf source bufsize : Nat) (acts : List Act) : Prop where
  allocated : lbuf ≠ 0
  live : CopiesLive [] acts
  confined : ∀ act ∈ acts, confined pageSize lbuf source bufsize act = true

theorem faultless_attached (faultless : Faultless pageSize lbuf source bufsize acts) : .memcpySegment dst .failed off len ∉ acts := by
  intro member
  obtain ⟨a,same⟩ := copies_attached faultless.live member
  cases same

def roundKinds (iters : Nat) : List Kind := (List.range iters).flatMap fun _ => [.bcast,.gather]

theorem roundKinds_split (below : j < iters) : ∃ more, roundKinds iters = roundKinds j ++ (.bcast :: .gather :: more) := by
  refine ⟨(List.range' (j+1) (iters-(j+1))).flatMap fun _ => [.bcast,.gather],?_⟩
  rw [roundKinds,range_split below]
  simp [roundKinds]

theorem rtsFin_kinds (nblocks count : Nat) : kinds stampedKind ((List.range count).flatMap (rtsFin nblocks)) = roundKinds count := by
  rw [kinds_flatMap]
  rfl

theorem calls_kinds (acts : List Stamped) : kinds stampedKind (calls stampedKind acts) = kinds stampedKind acts := by
  have whole := @kinds_calls_take _ stampedKind acts (kinds stampedKind acts).length
  rw [List.take_length,← calls_length,List.take_length] at whole
  exact whole.symm

section
variable {attachNow detachNow : Nat → Bool} {pageSize lbuf nblocks iters : Nat} {driver : XpmemDriver} {iov : Nat → List IoVec}

-- A receiver that never copies from (void *)-1 makes all its calls, or leaves at the first
-- refused page, behind the RTS.
theorem loop_either (lengths : ∀ j, (iov j).length = nblocks) (apid : Nat)
    (copies : NoFailedCopy (xpmemLoop .receiver attachNow detachNow iters pageSize lbuf driver iov nblocks apid).acts) :
    ((∀ j < iters, attachNow j = true → Granted attachNow pageSize driver iov j) ∧
      (∃ s, (xpmemLoop .receiver attachNow detachNow iters pageSize lbuf driver iov nblocks apid).out = .ok s) ∧
      kinds stampedKind (xpmemLoop .receiver attachNow detachNow iters pageSize lbuf driver iov nblocks apid).acts = roundKinds iters) ∨
    ((¬ ∀ j < iters, attachNow j = true → Granted attachNow pageSize driver iov j) ∧
      (∃ last, (xpmemLoop .receiver attachNow detachNow iters pageSize lbuf driver iov nblocks apid).out = .error (.cleanup last)) ∧
      ∃ j < iters, kinds stampedKind (xpmemLoop .receiver attachNow detachNow iters pageSize lbuf driver iov nblocks apid).acts =
        roundKinds j ++ [.bcast]) := by
  by_cases granted : ∀ j < iters, attachNow j = true → Granted attachNow pageSize driver iov j
  · obtain ⟨s,ended,sound⟩ := @loop_sound_upto attachNow detachNow pageSize lbuf nblocks driver iov iters lengths apid granted
    refine .inl ⟨granted,⟨s,ended⟩,?_⟩
    rw [← calls_kinds,sound.calls,rtsFin_kinds]
  · rcases @loop_refused attachNow detachNow pageSize lbuf nblocks iters driver iov lengths apid granted with
      failed | ⟨j,below,last,stopped,called⟩
    · exact absurd copies failed
    · refine .inr ⟨granted,⟨last,stopped⟩,j,below,?_⟩
      rw [← calls_kinds,called,kinds_append,rtsFin_kinds]
      rfl

theorem sender_kinds (apid : Nat) : (∃ s, (xpmemLoop .sender attachNow detachNow iters pageSize lbuf driver iov nblocks apid).out = .ok s) ∧
    kinds stampedKind (xpmemLoop .sender attachNow detachNow iters pageSize lbuf driver iov nblocks apid).acts = roundKinds iters := by
  rw [sender_loop]
  exact ⟨⟨_,rfl⟩,rtsFin_kinds nblocks iters⟩

end

-- States that differ in what the `n` entries of attached_seglist hold from `i` on.
structure SameUpto (n i : Nat) (s t : XpmemState) : Prop where
  last : s.lastpagebaseAddr = t.lastpagebaseAddr
  curr : s.currAttachPtr = t.currAttachPtr
  apid : s.apid = t.apid
  own : s.attachedSeglist.length = n
  other : t.attachedSeglist.length = n
  entries : ∀ k < i, s.attachedSeglist[k]? = t.attachedSeglist[k]?

section
variable {pageSize n i : Nat} {attach : Nat → Nat → Nat → Option Nat} {iov : List IoVec} {own other : List SegPtr} {s t : XpmemState}

theorem set_upto (length : own.length = other.length) (entries : ∀ k < i, own[k]? = other[k]?) (segment : SegPtr) : ∀ k < i + 1,
    (own.set i segment)[k]? = (other.set i segment)[k]? := by
  intro k below
  rw [List.getElem?_set,List.getElem?_set,length]
  split
  · rfl
  · exact entries k (by omega)

theorem write_related (left : own.length = n) (right : other.length = n) (entries : ∀ k < i, own[k]? = other[k]?) (page : Nat)
    (ptr segment : SegPtr) (apid : Nat) : Related (SameUpto n (i+1))
      (writeAt own i segment >>= fun list => pure ⟨page,ptr,list,apid⟩ : Run Fault Act XpmemState)
      (writeAt other i segment >>= fun list => pure ⟨page,ptr,list,apid⟩) := by
  have length := left.trans right.symm
  unfold writeAt
  rw [length]
  split
  · refine .ok [] ⟨rfl,rfl,rfl,?_,?_,set_upto length entries segment⟩
    · simpa only [List.length_set] using left
    · simpa only [List.length_set] using right
  · exact .error [] _

theorem attach_related (same : SameUpto n i s t) :
    Related (SameUpto n (i+1)) (attachPass pageSize attach iov i s) (attachPass pageSize attach iov i t) := by
  obtain ⟨page,curr,own,apid⟩ := s
  obtain ⟨_,_,other,_⟩ := t
  obtain ⟨rfl,rfl,rfl,left,right,entries⟩ := same
  unfold attachPass
  refine related_chain (related_refl (readAt iov i)) fun v w equal => ?_
  subst equal
  dsimp only
  split
  · split
    · refine related_chain (related_refl _) fun _ _ _ => ?_
      split
      · exact .error [] _
      · exact write_related left right entries _ _ _ _
    · exact write_related left right entries _ _ _ _
  · exact related_chain (related_refl _) fun _ _ _ => write_related left right entries _ _ _ _

-- Behind a loop over all entries nothing is left of what they were.
theorem all_same (same : SameUpto n n s t) : s = t := by
  obtain ⟨page,curr,own,apid⟩ := s
  obtain ⟨_,_,other,_⟩ := t
  obtain ⟨rfl,rfl,rfl,left,right,entries⟩ := same
  have lists : own = other := by
    apply List.ext_getElem?
    intro k
    by_cases below : k < n
    · exact entries k below
    · rw [List.getElem?_eq_none (by dsimp only at left; omega),List.getElem?_eq_none (by dsimp only at right; omega)]
  rw [lists]

end

-- From its first iteration on a receiver is in the same state.
def Carries (role : Role) (n j : Nat) (s t : XpmemState) : Prop := if role = .receiver ∧ 0 < j then s = t else SameUpto n 0 s t

section
variable {role : Role} {attachNow detachNow : Nat → Bool} {pageSize lbuf n iters : Nat} {driver : XpmemDriver} {iov : Nat → List IoVec}
  {s t : XpmemState}

theorem segments_related (blank : SameUpto n 0 s t) (iov : List IoVec) (j : Nat) :
    Related Eq (attachSegments true pageSize driver iov n j s) (attachSegments true pageSize driver iov n j t) := by
  unfold attachSegments
  rw [if_pos rfl,if_pos rfl,Int.toNat_natCast]
  refine related_chain (related_refl _) fun _ _ _ => ?_
  refine related_mono (fun _ _ => all_same) (related_forRange (fun i s t _ same => attach_related same) ?_)
  exact ⟨blank.last,blank.curr,rfl,blank.own,blank.other,blank.entries⟩

theorem iteration_related (attaches : attachNow 0 = true) (j : Nat) (carries : Carries role n j s t) :
    Related (Carries role n (j+1)) (xpmemIteration role (attachNow j) (detachNow j) pageSize lbuf driver (iov j) n j s)
      (xpmemIteration role (attachNow j) (detachNow j) pageSize lbuf driver (iov j) n j t) := by
  cases role with
  | sender =>
      have blank : SameUpto n 0 s t := carries
      exact .ok [Act.bcast .iov (iovecBytes n),Act.gather] blank
  | receiver =>
      have state : ∀ {s t : XpmemState}, s = t → Carries .receiver n (j+1) s t := fun same => (if_pos ⟨rfl,Nat.succ_pos j⟩).mpr same
      cases j with
      | succ j =>
          have same : s = t := (if_pos ⟨rfl,Nat.succ_pos j⟩).mp carries
          rw [same]
          exact related_mono (fun _ _ => state) (related_refl _)
      | zero =>
          have blank : SameUpto n 0 s t := (if_neg (by simp)).mp carries
          rw [attaches]
          unfold xpmemIteration
          refine related_chain (related_refl _) fun _ _ _ => related_chain (segments_related blank (iov 0) 0) fun u v same => ?_
          rw [same]
          exact related_mono (fun _ _ => state) (related_refl _)

theorem cleanup_related {first second : Run Fault Stamped XpmemState} (related : Related (fun s t => s.apid = t.apid) first second) :
    cleanup first = cleanup second := by
  cases related with
  | ok acts same => simp only [cleanup,same]
  | error => rfl

-- What attached_seglist starts with does not matter.
theorem empty_loop (role : Role) (attaches : attachNow 0 = true) (apid : Nat) :
    cleanup (forRange iters (fun j s => (xpmemIteration role (attachNow j) (detachNow j) pageSize lbuf driver (iov j) n j s).label
      (Prod.mk (some j))) (XpmemState.empty n apid)) =
      cleanup (xpmemLoop role attachNow detachNow iters pageSize lbuf driver iov n apid) := by
  have start : Carries role n 0 (XpmemState.empty n apid) (XpmemState.start n apid) := by
    refine (if_neg (by simp)).mpr ⟨rfl,rfl,rfl,?_,?_,nofun⟩
    · simp [XpmemState.empty]
    · simp [XpmemState.start]
  refine cleanup_related (related_mono (fun s t carries => ?_)
    (related_forRange (fun j s t _ carries => related_label _ (iteration_related attaches j carries)) start))
  unfold Carries at carries
  split at carries
  · rw [carries]
  · exact carries.apid

end
end MpidtBench.AttachSplits
