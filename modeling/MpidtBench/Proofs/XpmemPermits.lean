import MpidtBench.Library.Ledger
import MpidtBench.Proofs.XpmemFailure

namespace MpidtBench.XpmemPermits
open Traced CInteger ScatterGather Ledger MpidtBench XpmemLoops XpmemFailure

-- What xpmem_get hands out and xpmem_release takes back.
def permitEntry : Act → Option (Entry Nat)
  | .xpmemGet apid => some (.acquire apid)
  | .xpmemRelease apid => some (.release apid)
  | _ => none
def permits (acts : List Act) : List (Entry Nat) := acts.filterMap permitEntry

def PermitsBalance (acts : List Stamped) : Prop :=
  (released (permits (acts.map Prod.snd))).Perm (acquired (permits (acts.map Prod.snd)))

-- The apid held behind the actions: the last one obtained.
def inHand (apid : Nat) (acts : List Act) : Nat := (acquired (permits acts)).getLastD apid

-- A receiver's attach loop leaves by goto: for some block.
def Leaves (pageSize : Nat) (attach : Nat → Nat → Nat → Option Nat) (last : Nat) (iov : List IoVec) : Prop :=
  ∃ i v, iov[i]? = some v ∧ Refuses pageSize attach (lastPage pageSize last (iov.take i)) i v

-- The attach loop in front of block `i`, that did not leave so far.
structure Attaching (pageSize : Nat) (attach : Nat → Nat → Nat → Option Nat) (start : XpmemState) (iov : List IoVec) (i : Nat)
    (s : XpmemState) : Prop where
  length : s.attachedSeglist.length = start.attachedSeglist.length
  apid : s.apid = start.apid
  last : s.lastpagebaseAddr = lastPage pageSize start.lastpagebaseAddr (iov.take i)
  passed : ∀ k < i, ∀ v, iov[k]? = some v → ¬ Refuses pageSize attach (lastPage pageSize start.lastpagebaseAddr (iov.take k)) k v

-- A part of the function that releases nothing and ends with its apid in hand.
structure Carries (nblocks apid : Nat) (acts : List Act) (out : Except Fault XpmemState) : Prop where
  kept : released (permits acts) = []
  ends : (∃ t, out = .ok t ∧ t.attachedSeglist.length = nblocks ∧ t.apid = inHand apid acts) ∨ out = .error (.cleanup (inHand apid acts))

theorem permits_append (first second : List Act) : permits (first ++ second) = permits first ++ permits second := List.filterMap_append

@[simp] theorem permits_bcast (what : Message) (count : Int) (rest : List Act) : permits (.bcast what count :: rest) = permits rest := rfl

theorem permits_none {acts : List Act} (others : ∀ act ∈ acts, permitEntry act = none) : permits acts = [] :=
  List.filterMap_eq_nil_iff.mpr others

theorem getLastD_append (first second : List Nat) (a : Nat) : (first ++ second).getLastD a = second.getLastD (first.getLastD a) := by
  induction first generalizing a with
  | nil => rfl
  | cons b rest ih => rw [List.cons_append,List.getLastD_cons,List.getLastD_cons,ih]

theorem inHand_append (apid : Nat) (first second : List Act) : inHand apid (first ++ second) = inHand (inHand apid first) second := by
  rw [inHand,permits_append,acquired_append,getLastD_append]
  rfl

section
variable {pageSize nblocks : Nat} {attach : Nat → Nat → Nat → Option Nat} {start : XpmemState}

theorem attach_outcome {iov : List IoVec} (room : iov.length ≤ start.attachedSeglist.length) :
    (∃ t, (forRange iov.length (attachPass pageSize attach iov) start).out = .ok t ∧
      t.attachedSeglist.length = start.attachedSeglist.length ∧ t.apid = start.apid ∧
      ¬ Leaves pageSize attach start.lastpagebaseAddr iov) ∨
    ((forRange iov.length (attachPass pageSize attach iov) start).out = .error (.cleanup start.apid) ∧
      Leaves pageSize attach start.lastpagebaseAddr iov) := by
  have step : ∀ i s, 0 ≤ i → i < 0 + iov.length → Attaching pageSize attach start iov i s →
      (∃ next, (attachPass pageSize attach iov i s).out = .ok next ∧ Attaching pageSize attach start iov (i+1) next) ∨
      ∃ fault, (attachPass pageSize attach iov i s).out = .error fault ∧ fault = .cleanup start.apid ∧
        Leaves pageSize attach start.lastpagebaseAddr iov := by
    intro i s _ below old
    have known : iov[i]? = some iov[i] := List.getElem?_eq_getElem (by omega)
    have reach : i < s.attachedSeglist.length := by rw [old.length]; omega
    rcases attach_either known reach with ⟨t,_,ended,written,page,same,stays⟩ | ⟨ended,refuses⟩
    · refine .inl ⟨t,ended,by rw [written,List.length_set,old.length],same.trans old.apid,?_,?_⟩
      · rw [page,old.last,take_succ_of known,lastPage_append]
        rfl
      · intro k earlier v there
        by_cases now : k = i
        · subst now
          rw [known] at there
          cases there
          rw [← old.last]
          exact stays
        · exact old.passed k (by omega) v there
    · exact .inr ⟨_,ended,by rw [old.apid],i,_,known,old.last ▸ refuses⟩
  rcases forFrom_cases _ _ step ⟨rfl,rfl,rfl,fun k early => absurd early (Nat.not_lt_zero k)⟩ with ⟨t,ended,whole⟩ | ⟨_,ended,rfl,leaves⟩
  · refine .inl ⟨t,ended,whole.length,whole.apid,fun leaves => ?_⟩
    obtain ⟨i,v,known,refuses⟩ := leaves
    exact whole.passed i (by rw [Nat.zero_add]; exact (List.getElem?_eq_some_iff.mp known).1) v known refuses
  · exact .inr ⟨ended,leaves⟩

end

section
variable {role : Role} {attachNow detachNow : Nat → Bool} {iters pageSize lbuf nblocks apid : Nat} {driver : XpmemDriver}
  {iov : Nat → List IoVec} {s : XpmemState}

-- What an iteration does with the permit, and when it leaves.
theorem attach_permits (attaches : Bool) (j : Nat) (s : XpmemState) (list : List IoVec) (count : Int) :
    permits (attachSegments attaches pageSize driver list count j s).acts = if attaches then [.acquire (driver.get j)] else [] := by
  cases attaches with
  | false => rfl
  | true =>
      simp only [attachSegments,if_true,Run.emit_chain]
      have loop : permits (forRange count.toNat (attachPass pageSize (driver.attach j) list) {s with apid := driver.get j}).acts = [] := by
        apply permits_none
        intro act member
        obtain ⟨_,_,_,rfl⟩ := forFrom_acts (fun act => ∃ offset size result, act = .xpmemAttach offset size result) attach_calls act member
        rfl
      exact congrArg ([.acquire (driver.get j)] ++ ·) loop

theorem attach_ends (lengths : (iov j).length = nblocks) (held : s.attachedSeglist.length = nblocks) :
    (∃ t, (attachSegments (attachNow j) pageSize driver (iov j) nblocks j s).out = .ok t ∧ t.attachedSeglist.length = nblocks ∧
      t.apid = (if attachNow j then driver.get j else s.apid) ∧
      ¬ (attachNow j = true ∧ Leaves pageSize (driver.attach j) s.lastpagebaseAddr (iov j))) ∨
    (attachNow j = true ∧ (attachSegments (attachNow j) pageSize driver (iov j) nblocks j s).out = .error (.cleanup (driver.get j)) ∧
      Leaves pageSize (driver.attach j) s.lastpagebaseAddr (iov j)) := by
  cases attachNow j with
  | false => exact .inl ⟨s,rfl,held,rfl,nofun⟩
  | true =>
      have shape : (attachSegments true pageSize driver (iov j) nblocks j s).out =
          (forRange (iov j).length (attachPass pageSize (driver.attach j) (iov j)) {s with apid := driver.get j}).out := by
        simp only [attachSegments,if_true,Run.emit_chain,lengths,Int.toNat_natCast]
      rw [shape]
      rcases @attach_outcome pageSize (driver.attach j) {s with apid := driver.get j} (iov j) (by simp only [held,lengths]; exact Nat.le_refl _)
        with ⟨t,ended,length,same,stays⟩ | ⟨ended,leaves⟩
      · exact .inl ⟨t,ended,length.trans held,same,fun given => stays given.2⟩
      · exact .inr ⟨rfl,ended,leaves⟩

theorem receiver_permits (lengths : (iov j).length = nblocks) (held : s.attachedSeglist.length = nblocks) :
    permits (xpmemIteration .receiver (attachNow j) (detachNow j) pageSize lbuf driver (iov j) nblocks j s).acts =
        (if attachNow j then [.acquire (driver.get j)] else []) ∧
      (xpmemIteration .receiver (attachNow j) (detachNow j) pageSize lbuf driver (iov j) nblocks j s).out =
        (attachSegments (attachNow j) pageSize driver (iov j) nblocks j s).out := by
  have front := @attach_permits pageSize driver (attachNow j) j s (iov j) nblocks
  rcases @attach_ends attachNow pageSize nblocks driver iov s j lengths held with ⟨t,ended,length,_⟩ | ⟨_,ended,_⟩
  · rw [receiver_iteration ended lengths length,ended]
    have copies : permits (segmentCopies pageSize lbuf 0 ((iov j).zip t.attachedSeglist)) = [] := by
      apply permits_none
      intro act member
      obtain ⟨_,_,_,_,rfl⟩ := segmentCopies_mem.mp member
      rfl
    have closing : permits ((if detachNow j then detaches t.attachedSeglist else []) ++ [.gather]) = [] := by
      apply permits_none
      intro act member
      rcases List.mem_append.mp member with detached | gather
      · obtain ⟨_,_,rfl⟩ := detached_acts act detached
        rfl
      · rw [List.mem_singleton.mp gather]
        rfl
    refine ⟨?_,rfl⟩
    rw [permits_bcast,permits_append,permits_append,front,copies,closing,List.append_nil,List.append_nil]
  · rw [receiver_refused ended,ended]
    refine ⟨?_,rfl⟩
    rw [permits_bcast,front]

theorem iteration_carries (lengths : (iov j).length = nblocks) (held : s.attachedSeglist.length = nblocks) :
    Carries nblocks s.apid (xpmemIteration role (attachNow j) (detachNow j) pageSize lbuf driver (iov j) nblocks j s).acts
      (xpmemIteration role (attachNow j) (detachNow j) pageSize lbuf driver (iov j) nblocks j s).out := by
  cases role with
  | sender => exact ⟨rfl,.inl ⟨s,rfl,held,rfl⟩⟩
  | receiver =>
      obtain ⟨made,out⟩ := @receiver_permits attachNow detachNow pageSize lbuf nblocks driver iov s j lengths held
      have hand : inHand s.apid (xpmemIteration .receiver (attachNow j) (detachNow j) pageSize lbuf driver (iov j) nblocks j s).acts =
          if attachNow j then driver.get j else s.apid := by
        rw [inHand,made]
        cases attachNow j <;> rfl
      refine ⟨?_,?_⟩
      · rw [made]
        cases attachNow j <;> rfl
      · rw [hand,out]
        rcases @attach_ends attachNow pageSize nblocks driver iov s j lengths held with ⟨t,ended,length,same,_⟩ | ⟨now,ended,_⟩
        · exact .inl ⟨t,ended,length,same⟩
        · right
          rw [ended,now]
          rfl

-- The benchmark loop from iteration `first` on.
def body (role : Role) (attachNow detachNow : Nat → Bool) (pageSize lbuf : Nat) (driver : XpmemDriver) (iov : Nat → List IoVec)
    (nblocks j : Nat) (s : XpmemState) : Run Fault Stamped XpmemState :=
  (xpmemIteration role (attachNow j) (detachNow j) pageSize lbuf driver (iov j) nblocks j s).label (Prod.mk (some j))

theorem body_acts (j : Nat) (s : XpmemState) : (body role attachNow detachNow pageSize lbuf driver iov nblocks j s).acts.map Prod.snd =
    (xpmemIteration role (attachNow j) (detachNow j) pageSize lbuf driver (iov j) nblocks j s).acts := by
  simp [body,Run.label,Function.comp_def]

theorem loop_carries (lengths : ∀ j, (iov j).length = nblocks) (first count : Nat) (held : s.attachedSeglist.length = nblocks) :
    Carries nblocks s.apid ((forFrom (body role attachNow detachNow pageSize lbuf driver iov nblocks) first count s).acts.map Prod.snd)
      (forFrom (body role attachNow detachNow pageSize lbuf driver iov nblocks) first count s).out := by
  induction count generalizing first s with
  | zero => exact ⟨rfl,.inl ⟨s,rfl,held,rfl⟩⟩
  | succ count ih =>
      have here := @iteration_carries role attachNow detachNow pageSize lbuf nblocks driver iov s first (lengths first) held
      rw [← body_acts] at here
      rw [forFrom]
      rcases here.ends with ⟨t,ended,length,same⟩ | ended
      · have later := ih (first+1) length
        have passed : (body role attachNow detachNow pageSize lbuf driver iov nblocks first s).out = .ok t := ended
        rw [Run.chain_ok passed,List.map_append]
        refine ⟨?_,?_⟩
        · rw [permits_append,released_append,here.kept,later.kept]
          rfl
        · rw [inHand_append,← same]
          exact later.ends
      · have stopped : (body role attachNow detachNow pageSize lbuf driver iov nblocks first s).out = .error _ := ended
        rw [Run.chain_error stopped]
        exact ⟨here.kept,.inr rfl⟩

def obtained (acts : List Stamped) : List Nat := acquired (permits (acts.map Prod.snd))

theorem obtained_here (lengths : (iov j).length = nblocks) (held : s.attachedSeglist.length = nblocks) :
    obtained (body .receiver attachNow detachNow pageSize lbuf driver iov nblocks j s).acts =
      if attachNow j then [driver.get j] else [] := by
  rw [obtained,body_acts,(receiver_permits lengths held).1]
  cases attachNow j <;> rfl

theorem body_ends (lengths : (iov j).length = nblocks) (held : s.attachedSeglist.length = nblocks) :
    (∃ t, (body .receiver attachNow detachNow pageSize lbuf driver iov nblocks j s).out = .ok t ∧ t.attachedSeglist.length = nblocks ∧
      ¬ (attachNow j = true ∧ Leaves pageSize (driver.attach j) s.lastpagebaseAddr (iov j))) ∨
    (∃ fault, (body .receiver attachNow detachNow pageSize lbuf driver iov nblocks j s).out = .error fault) ∧
      attachNow j = true ∧ Leaves pageSize (driver.attach j) s.lastpagebaseAddr (iov j) := by
  have out := (@receiver_permits attachNow detachNow pageSize lbuf nblocks driver iov s j lengths held).2
  rcases @attach_ends attachNow pageSize nblocks driver iov s j lengths held with ⟨t,ended,length,_,stays⟩ | ⟨now,ended,leaves⟩
  · exact .inl ⟨t,out.trans ended,length,stays⟩
  · exact .inr ⟨⟨_,out.trans ended⟩,now,leaves⟩

theorem obtained_pass (ended : (body .receiver attachNow detachNow pageSize lbuf driver iov nblocks first s).out = .ok t) (count : Nat) :
    obtained (forFrom (body .receiver attachNow detachNow pageSize lbuf driver iov nblocks) first (count+1) s).acts =
      obtained (body .receiver attachNow detachNow pageSize lbuf driver iov nblocks first s).acts ++
        obtained (forFrom (body .receiver attachNow detachNow pageSize lbuf driver iov nblocks) (first+1) count t).acts := by
  rw [forFrom,Run.chain_ok ended,obtained,List.map_append,permits_append,acquired_append]
  rfl

theorem obtained_stop (ended : (body .receiver attachNow detachNow pageSize lbuf driver iov nblocks first s).out = .error fault) (count : Nat) :
    obtained (forFrom (body .receiver attachNow detachNow pageSize lbuf driver iov nblocks) first (count+1) s).acts =
      obtained (body .receiver attachNow detachNow pageSize lbuf driver iov nblocks first s).acts := by
  rw [forFrom,Run.chain_error ended]

-- Iterations that do not attach obtain nothing.
theorem obtained_idle (lengths : ∀ j, (iov j).length = nblocks) {first count : Nat} (idle : ∀ j, first ≤ j → attachNow j = false)
    (held : s.attachedSeglist.length = nblocks) :
    obtained (forFrom (body .receiver attachNow detachNow pageSize lbuf driver iov nblocks) first count s).acts = [] := by
  induction count generalizing first s with
  | zero => rfl
  | succ count ih =>
      have here := @obtained_here attachNow detachNow pageSize lbuf nblocks driver iov s first (lengths first) held
      rw [idle first (Nat.le_refl _),if_neg Bool.false_ne_true] at here
      rcases @body_ends attachNow detachNow pageSize lbuf nblocks driver iov s first (lengths first) held with ⟨t,ended,length,_⟩ | ⟨_,now,_⟩
      · rw [obtained_pass ended,here,List.nil_append]
        exact ih (fun j above => idle j (Nat.le_of_succ_le above)) length
      · rw [idle first (Nat.le_refl _)] at now
        cases now

-- The first iteration attaches; what follows depends on whether it leaves.
theorem obtained_first (lengths : ∀ j, (iov j).length = nblocks) (now : attachNow 0 = true) (held : s.attachedSeglist.length = nblocks)
    (count : Nat) :
    (Leaves pageSize (driver.attach 0) s.lastpagebaseAddr (iov 0) ∧
      obtained (forFrom (body .receiver attachNow detachNow pageSize lbuf driver iov nblocks) 0 (count+1) s).acts = [driver.get 0]) ∨
    (¬ Leaves pageSize (driver.attach 0) s.lastpagebaseAddr (iov 0) ∧ ∃ t, t.attachedSeglist.length = nblocks ∧
      obtained (forFrom (body .receiver attachNow detachNow pageSize lbuf driver iov nblocks) 0 (count+1) s).acts =
        driver.get 0 :: obtained (forFrom (body .receiver attachNow detachNow pageSize lbuf driver iov nblocks) 1 count t).acts) := by
  have here := @obtained_here attachNow detachNow pageSize lbuf nblocks driver iov s 0 (lengths 0) held
  rw [now,if_pos rfl] at here
  rcases @body_ends attachNow detachNow pageSize lbuf nblocks driver iov s 0 (lengths 0) held with ⟨t,ended,length,stays⟩ | ⟨⟨_,ended⟩,_,leaves⟩
  · exact .inr ⟨fun leaves => stays ⟨now,leaves⟩,t,length,by rw [obtained_pass ended,here]; rfl⟩
  · exact .inl ⟨leaves,by rw [obtained_stop ended,here]⟩

theorem obtained_more (lengths : ∀ j, (iov j).length = nblocks) (now : attachNow first = true) (held : s.attachedSeglist.length = nblocks)
    (count : Nat) : ∃ rest, obtained (forFrom (body .receiver attachNow detachNow pageSize lbuf driver iov nblocks) first (count+1) s).acts =
      driver.get first :: rest := by
  have here := @obtained_here attachNow detachNow pageSize lbuf nblocks driver iov s first (lengths first) held
  rw [now,if_pos rfl] at here
  rcases @body_ends attachNow detachNow pageSize lbuf nblocks driver iov s first (lengths first) held with ⟨t,ended,_⟩ | ⟨⟨_,ended⟩,_⟩
  · exact ⟨_,by rw [obtained_pass ended,here]; rfl⟩
  · exact ⟨[],by rw [obtained_stop ended,here]⟩

end

-- One release of the last permit balances a list of permits that has just that one.
theorem last_perm {got : List Nat} : (if got.getLastD apid ≠ 0 then [got.getLastD apid] else []).Perm got ↔
    (got = [] ∧ apid = 0) ∨ ∃ a, got = [a] ∧ a ≠ 0 := by
  cases got with
  | nil =>
      rw [List.getLastD_nil]
      split
      · rename_i nonzero
        simp [nonzero]
      · rename_i zero
        simp [Classical.not_not.mp zero]
  | cons a rest =>
      cases rest with
      | nil =>
          rw [List.getLastD_cons,List.getLastD_nil]
          split
          · rename_i nonzero
            simp [nonzero]
          · rename_i zero
            simp [Classical.not_not.mp zero]
      | cons b rest =>
          constructor
          · intro same
            have sizes := same.length_eq
            split at sizes
            · simp at sizes
            · simp at sizes
          · rintro (⟨none,_⟩ | ⟨_,one,_⟩)
            · cases none
            · cases one

section
variable {role : Role} {attachNow detachNow : Nat → Bool} {iters pageSize lbuf nblocks bufsize blocksize apid : Nat} {driver : XpmemDriver}
  {iov : Nat → List IoVec}

theorem permits_release (apid : Nat) : permits ((release apid).map Prod.snd) = if apid ≠ 0 then [.release apid] else [] := by
  unfold release
  split <;> rfl

theorem permits_framed (first : Stamped) (opens : permitEntry first.2 = none) (loop closing : List Stamped) :
    permits ((first :: (none,.bcast .segid 8) :: (loop ++ closing)).map Prod.snd) =
      permits (loop.map Prod.snd) ++ permits (closing.map Prod.snd) := by
  rw [List.map_cons,List.map_cons,List.map_append,← permits_append,permits,List.filterMap_cons_none opens]
  rfl

-- A loop that releases nothing, and behind it the one release of the apid in hand.
theorem closed_balance {first : Stamped} {loop closing : List Stamped} (opens : permitEntry first.2 = none)
    (kept : released (permits (loop.map Prod.snd)) = [])
    (closes : permits (closing.map Prod.snd) = permits ((release (inHand apid (loop.map Prod.snd))).map Prod.snd)) :
    PermitsBalance (first :: (none,.bcast .segid 8) :: (loop ++ closing)) ↔
      (obtained loop = [] ∧ apid = 0) ∨ ∃ a, obtained loop = [a] ∧ a ≠ 0 := by
  rw [PermitsBalance,permits_framed first opens,closes,permits_release,released_append,acquired_append,kept,← last_perm]
  unfold inHand obtained
  split
  · rw [released_release,released_nil,acquired_release,acquired_nil,List.append_nil,List.nil_append]
  · rw [released_nil,acquired_nil,List.append_nil,List.append_nil]

theorem benchmark_balance (version : 0 ≤ driver.version) (count : toInt (bufsize / blocksize) = nblocks)
    (lengths : ∀ j, (iov j).length = nblocks) :
    PermitsBalance (benchmarkXpmem role attachNow detachNow iters pageSize lbuf driver iov bufsize blocksize apid).acts ↔
      (obtained (xpmemLoop role attachNow detachNow iters pageSize lbuf driver iov nblocks apid).acts = [] ∧ apid = 0) ∨
      ∃ a, obtained (xpmemLoop role attachNow detachNow iters pageSize lbuf driver iov nblocks apid).acts = [a] ∧ a ≠ 0 := by
  have carries := @loop_carries role attachNow detachNow pageSize lbuf nblocks driver iov (XpmemState.start nblocks apid) lengths 0 iters
    (by simp [XpmemState.start])
  change Carries nblocks apid ((xpmemLoop role attachNow detachNow iters pageSize lbuf driver iov nblocks apid).acts.map Prod.snd)
    (xpmemLoop role attachNow detachNow iters pageSize lbuf driver iov nblocks apid).out at carries
  rw [← count] at carries ⊢
  rcases carries.ends with ⟨t,ended,_,same⟩ | ended
  · rw [benchmark_ended version ended,same]
    exact closed_balance rfl carries.kept rfl
  · rw [benchmark_stopped version ended]
    exact closed_balance rfl carries.kept rfl

theorem sender_obtains (nblocks : Int) : obtained (xpmemLoop .sender attachNow detachNow iters pageSize lbuf driver iov nblocks apid).acts = [] := by
  rw [obtained,permits_none]
  · rfl
  · intro act member
    obtain ⟨event,issued,rfl⟩ := List.mem_map.mp member
    refine forFrom_acts (fun event : Stamped => permitEntry event.2 = none) ?_ event issued
    intro j s event made
    obtain ⟨act,call,rfl⟩ := List.mem_map.mp made
    rcases List.mem_cons.mp call with rfl | later
    · rfl
    · rw [List.mem_singleton.mp later]
      rfl

theorem cached_obtains (lengths : ∀ j, (iov j).length = nblocks) (some_iteration : 0 < iters) :
    obtained (xpmemLoop .receiver (fun j => useCache && j == 0) detachNow iters pageSize lbuf driver iov nblocks apid).acts = [driver.get 0] := by
  obtain ⟨count,rfl⟩ : ∃ count, iters = count + 1 := ⟨iters-1,by omega⟩
  rcases @obtained_first (fun j => useCache && j == 0) detachNow pageSize lbuf nblocks driver iov (XpmemState.start nblocks apid) lengths rfl
    (by simp [XpmemState.start]) count with ⟨_,got⟩ | ⟨_,t,length,got⟩
  · exact got
  · refine got.trans ?_
    rw [obtained_idle lengths (fun j above => ?_) length]
    obtain ⟨k,rfl⟩ : ∃ k, j = k + 1 := ⟨j-1,by omega⟩
    rfl

-- Without the cache every iteration obtains a permit.
theorem nocache_obtains (lengths : ∀ j, (iov j).length = nblocks) (some_iteration : 0 < iters) :
    (∃ a, obtained (xpmemLoop .receiver (fun _ => true) detachNow iters pageSize lbuf driver iov nblocks apid).acts = [a] ∧ a ≠ 0) ↔
      driver.get 0 ≠ 0 ∧ (iters = 1 ∨ Leaves pageSize (driver.attach 0) 0 (iov 0)) := by
  obtain ⟨count,rfl⟩ : ∃ count, iters = count + 1 := ⟨iters-1,by omega⟩
  have first := @obtained_first (fun _ => true) detachNow pageSize lbuf nblocks driver iov (XpmemState.start nblocks apid) lengths rfl
    (by simp [XpmemState.start]) count
  change (Leaves pageSize (driver.attach 0) 0 (iov 0) ∧ obtained (xpmemLoop _ _ _ _ _ _ _ _ _ _).acts = _) ∨
    (¬ Leaves pageSize (driver.attach 0) 0 (iov 0) ∧ ∃ t, _ ∧ obtained (xpmemLoop _ _ _ _ _ _ _ _ _ _).acts = _) at first
  rcases first with ⟨leaves,got⟩ | ⟨stays,t,length,got⟩
  · rw [got]
    constructor
    · rintro ⟨a,same,nonzero⟩
      cases same
      exact ⟨nonzero,.inr leaves⟩
    · exact fun given => ⟨_,rfl,given.1⟩
  · rw [got]
    cases count with
    | zero =>
        constructor
        · rintro ⟨a,same,nonzero⟩
          cases same
          exact ⟨nonzero,.inl rfl⟩
        · exact fun given => ⟨_,rfl,given.1⟩
    | succ count =>
        obtain ⟨rest,more⟩ := @obtained_more (fun _ => true) detachNow pageSize lbuf nblocks driver iov t 1 lengths rfl length count
        rw [more]
        constructor
        · rintro ⟨_,same,_⟩
          cases same
        · rintro ⟨_,one | leaves⟩
          · omega
          · exact absurd leaves stays

end

-- Both ranks of both benchmarks, `apid` being what the uninitialised local holds. A receiver that
-- is stopped at a copy from (void *)-1 does not get to the label, and its call is not meant.
theorem permits_balance {iters : Nat} (some_iteration : 0 < iters) (pageSize : Nat) {bufsize blocksize : Nat} (driver : XpmemDriver)
    {iov : Nat → List IoVec} (lengths : ∀ j, ((iov j).length : Int) = toInt (bufsize / blocksize)) (lbuf apid : Nat) :
    (PermitsBalance (benchmarkXpmemNocache .sender iters pageSize lbuf driver iov bufsize blocksize apid).acts ↔
      driver.version < 0 ∨ apid = 0) ∧
    (PermitsBalance (benchmarkXpmemCached .sender iters pageSize lbuf driver iov bufsize blocksize apid).acts ↔
      driver.version < 0 ∨ apid = 0) ∧
    (PermitsBalance (benchmarkXpmemNocache .receiver iters pageSize lbuf driver iov bufsize blocksize apid).acts ↔
      driver.version < 0 ∨ (driver.get 0 ≠ 0 ∧ (iters = 1 ∨ Leaves pageSize (driver.attach 0) 0 (iov 0)))) ∧
    (PermitsBalance (benchmarkXpmemCached .receiver iters pageSize lbuf driver iov bufsize blocksize apid).acts ↔
      driver.version < 0 ∨ driver.get 0 ≠ 0) := by
  by_cases broken : driver.version < 0
  · have nothing : ∀ role attachNow detachNow,
        PermitsBalance (benchmarkXpmem role attachNow detachNow iters pageSize lbuf driver iov bufsize blocksize apid).acts := by
      intro role attachNow detachNow
      rw [benchmarkXpmem,if_pos broken]
      exact List.Perm.refl []
    exact ⟨iff_of_true (nothing _ _ _) (.inl broken),iff_of_true (nothing _ _ _) (.inl broken),
      iff_of_true (nothing _ _ _) (.inl broken),iff_of_true (nothing _ _ _) (.inl broken)⟩
  · have version : 0 ≤ driver.version := Int.not_lt.mp broken
    have count := (lengths 0).symm
    have same : ∀ j, (iov j).length = (iov 0).length := fun j => Int.ofNat_inj.mp ((lengths j).trans count)
    have sender : ∀ attachNow detachNow, PermitsBalance (benchmarkXpmem .sender attachNow detachNow iters pageSize lbuf driver iov
        bufsize blocksize apid).acts ↔ driver.version < 0 ∨ apid = 0 := by
      intro attachNow detachNow
      rw [benchmark_balance version count same,sender_obtains]
      simp [broken]
    refine ⟨sender _ _,sender _ _,?_,?_⟩
    · obtain ⟨rest,got⟩ := @obtained_more (fun _ => true) (fun _ => true) pageSize lbuf _ driver iov
        (XpmemState.start (iov 0).length apid) 0 same rfl (by simp [XpmemState.start]) (iters-1)
      rw [Nat.sub_add_cancel some_iteration] at got
      change obtained (xpmemLoop _ _ _ _ _ _ _ _ _ _).acts = _ at got
      rw [benchmarkXpmemNocache,benchmark_balance version count same,nocache_obtains same some_iteration,got]
      simp [broken]
    · rw [benchmarkXpmemCached,benchmark_balance version count same,cached_obtains same some_iteration]
      simp [broken]

theorem permits_balance_cached : PermitsBalance (benchmarkXpmemCached .receiver 110 4096 65536
    ⟨1,fun j => 7+j,fun _ _ offset _ => some (1048576 + offset)⟩ (fun _ => initIov 16384 8 1024) 8192 1024 5).acts := by
  have balance := @permits_balance 110 (by decide) 4096 8192 1024 ⟨1,fun j => 7+j,fun _ _ offset _ => some (1048576 + offset)⟩
    (fun _ => initIov 16384 8 1024) (fun _ => by decide) 65536 5
  exact balance.2.2.2.mpr (.inr (by decide))

-- A receiver obtains 110 permits and releases the last; a sender releases whatever apid held.
theorem permits_leak :
    ¬ PermitsBalance (benchmarkXpmemNocache .receiver 110 4096 65536 ⟨1,fun j => 7+j,fun _ _ offset _ => some (1048576 + offset)⟩
      (fun _ => initIov 16384 1 4096) 4096 4096 0).acts ∧
    ¬ PermitsBalance (benchmarkXpmemCached .sender 110 4096 16384 ⟨1,fun j => 7+j,fun _ _ _ _ => none⟩
      (fun _ => initIov 16384 1 4096) 4096 4096 5).acts := by
  unfold PermitsBalance
  exact ⟨by decide +kernel,by decide +kernel⟩

end MpidtBench.XpmemPermits
