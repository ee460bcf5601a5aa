import Mathlib.Data.Nat.Find
import MpidtBench.Model.Ranks
import MpidtBench.Proofs.XpmemLoops

namespace MpidtBench.XpmemFailure
open Traced CInteger ScatterGather Collective MpidtBench XpmemLoops

-- The blocks the attach loops of the first `j` iterations went through.
def seen (attachNow : Nat → Bool) (iov : Nat → List IoVec) (j : Nat) : List IoVec :=
  ((List.range j).filter attachNow).flatMap iov

def Granted (attachNow : Nat → Bool) (pageSize : Nat) (driver : XpmemDriver) (iov : Nat → List IoVec) (j : Nat) : Prop :=
  ∀ i v, (iov j)[i]? = some v → Asks pageSize (lastPage pageSize 0 (seen attachNow iov j ++ (iov j).take i)) v →
    (driver.attach j i (request pageSize v).1 (request pageSize v).2).isSome

def NoFailedCopy (acts : List Stamped) : Prop := ∀ stamp dst pgOff len, (stamp,.memcpySegment dst .failed pgOff len) ∉ acts

-- A receiver that copies from attached memory only and makes the sender's calls.
def KeepsProtocol (receiver sender : Run Fault Stamped Unit) : Prop :=
  NoFailedCopy receiver.acts ∧ calls stampedKind receiver.acts = calls stampedKind sender.acts

def rtsFin (nblocks j : Nat) : List Stamped := [(some j,.bcast .iov (iovecBytes nblocks)),(some j,.gather)]

theorem answer_failed : answer pageSize attach i v = .failed ↔ attach i (request pageSize v).1 (request pageSize v).2 = none := by
  unfold answer
  cases attach i (request pageSize v).1 (request pageSize v).2 <;> simp [attachResult]

theorem seen_succ (attachNow : Nat → Bool) (iov : Nat → List IoVec) (j : Nat) :
    seen attachNow iov (j+1) = seen attachNow iov j ++ if attachNow j then iov j else [] := by
  rw [seen,seen,List.range_succ,List.filter_append,List.flatMap_append]
  cases now : attachNow j <;> simp [now]

section
variable {pageSize : Nat} {attach : Nat → Nat → Nat → Option Nat} {iov : List IoVec} {s : XpmemState}

-- What makes a pass leave by goto: a page other than the one remembered that cannot be attached.
def Refuses (pageSize : Nat) (attach : Nat → Nat → Nat → Option Nat) (last i : Nat) (v : IoVec) : Prop :=
  v.iovLen < pageSize ∧ Asks pageSize last v ∧ answer pageSize attach i v = .failed

-- A pass of the attach loop goes on with one entry written, or leaves.
theorem attach_either (known : iov[i]? = some v) (room : i < s.attachedSeglist.length) :
    (∃ t segment, (attachPass pageSize attach iov i s).out = .ok t ∧ t.attachedSeglist = s.attachedSeglist.set i segment ∧
      t.lastpagebaseAddr = nextPage pageSize s.lastpagebaseAddr v ∧ t.apid = s.apid ∧ ¬ Refuses pageSize attach s.lastpagebaseAddr i v) ∨
    ((attachPass pageSize attach iov i s).out = .error (.cleanup s.apid) ∧ Refuses pageSize attach s.lastpagebaseAddr i v) := by
  by_cases asks : Asks pageSize s.lastpagebaseAddr v
  · by_cases refused : v.iovLen < pageSize ∧ answer pageSize attach i v = .failed
    · rw [attach_refused known asks refused.1 refused.2]
      exact .inr ⟨rfl,refused.1,asks,refused.2⟩
    · rw [attach_asked known room asks fun small failed => refused ⟨small,failed⟩]
      exact .inl ⟨_,_,rfl,rfl,rfl,rfl,fun given => refused ⟨given.1,given.2.2⟩⟩
  · obtain ⟨small,same⟩ := not_asks asks
    rw [attach_skipped known room small same]
    exact .inl ⟨_,_,rfl,rfl,by rw [nextPage,if_pos small,same],rfl,fun given => asks given.2.1⟩

-- Passes behind entry `i` leave it as it is.
theorem attach_rest {segment : SegPtr} (u : XpmemState) (room : iov.length ≤ u.attachedSeglist.length) (held : u.attachedSeglist[i]? = some segment)
    (total : i + 1 + count = iov.length) :
    (∃ t, (forFrom (attachPass pageSize attach iov) (i+1) count u).out = .ok t ∧
      t.attachedSeglist.length = u.attachedSeglist.length ∧ t.attachedSeglist[i]? = some segment) ∨
    ∃ apid, (forFrom (attachPass pageSize attach iov) (i+1) count u).out = .error (.cleanup apid) := by
  have step : ∀ k t, i + 1 ≤ k → k < i + 1 + count →
      (t.attachedSeglist.length = u.attachedSeglist.length ∧ t.attachedSeglist[i]? = some segment) →
      (∃ next, (attachPass pageSize attach iov k t).out = .ok next ∧
        (next.attachedSeglist.length = u.attachedSeglist.length ∧ next.attachedSeglist[i]? = some segment)) ∨
      ∃ fault, (attachPass pageSize attach iov k t).out = .error fault ∧ ∃ apid, fault = .cleanup apid := by
    intro k t above below given
    obtain ⟨length,kept⟩ := given
    have there : iov[k]? = some iov[k] := List.getElem?_eq_getElem (by omega)
    have reach : k < t.attachedSeglist.length := by omega
    rcases attach_either there reach with ⟨next,segment,ended,written,_⟩ | ⟨ended,_⟩
    · refine .inl ⟨next,ended,?_,?_⟩
      · rw [written,List.length_set,length]
      · rw [written,List.getElem?_set_ne (by omega),kept]
    · exact .inr ⟨_,ended,t.apid,rfl⟩
  rcases forFrom_cases (fun _ (t : XpmemState) => t.attachedSeglist.length = u.attachedSeglist.length ∧ t.attachedSeglist[i]? = some segment)
    (fun fault : Fault => ∃ apid, fault = .cleanup apid) step ⟨rfl,held⟩ with ⟨t,ended,kept⟩ | ⟨fault,ended,apid,rfl⟩
  · exact .inl ⟨t,ended,kept⟩
  · exact .inr ⟨apid,ended⟩

-- The first refusal decides: a page that cannot be attached ends the benchmark, a block
-- that cannot leaves (void *)-1 in its entry of the list.
theorem attach_refusal {start : XpmemState} {v : IoVec} (room : iov.length ≤ start.attachedSeglist.length)
    (known : iov[i]? = some v) (asks : Asks pageSize (lastPage pageSize start.lastpagebaseAddr (iov.take i)) v)
    (refused : answer pageSize attach i v = .failed)
    (first : ∀ k < i, ∀ w, iov[k]? = some w → Asks pageSize (lastPage pageSize start.lastpagebaseAddr (iov.take k)) w →
      answer pageSize attach k w ≠ .failed) :
    (∃ t, (forRange iov.length (attachPass pageSize attach iov) start).out = .ok t ∧
      t.attachedSeglist.length = start.attachedSeglist.length ∧ t.attachedSeglist[i]? = some .failed) ∨
    ∃ apid, (forRange iov.length (attachPass pageSize attach iov) start).out = .error (.cleanup apid) := by
  have inside : i < iov.length := (List.getElem?_eq_some_iff.mp known).1
  obtain ⟨s,before,attached⟩ := @attach_loop pageSize attach iov start i (Nat.le_of_lt inside) room first
  have held : i < s.attachedSeglist.length := by rw [attached.length]; omega
  rw [forRange_resume before inside]
  rw [← attached.last] at asks
  by_cases small : v.iovLen < pageSize
  · rw [attach_refused known asks small refused]
    exact .inr ⟨_,rfl⟩
  · rw [attach_asked known held asks (fun page => absurd page small),Run.ok_chain,refused]
    have failed : (s.attachedSeglist.set i .failed)[i]? = some .failed := List.getElem?_set_self held
    have length : (s.attachedSeglist.set i .failed).length = start.attachedSeglist.length := by
      rw [List.length_set,attached.length]
    rcases attach_rest ⟨_,_,s.attachedSeglist.set i .failed,s.apid⟩ (by rw [length]; exact room) failed
      (show i + 1 + (iov.length-(i+1)) = iov.length by omega) with ⟨t,ended,same,kept⟩ | left
    · exact .inl ⟨t,ended,same.trans length,kept⟩
    · exact .inr left

end

theorem calls_quiet {acts : List Act} (quiet : ∀ act ∈ acts, callKind act = none) : calls callKind acts = [] := by
  simpa [calls] using quiet

theorem stamped_calls (j : Nat) (acts : List Act) :
    calls stampedKind (acts.map (Prod.mk (some j))) = (calls callKind acts).map (Prod.mk (some j)) := by
  simp only [calls,List.filter_map]
  rfl

theorem iteration_calls {front copied detached : List Act} (attaches : ∀ act ∈ front, isAttach act = true)
    (copies : ∀ act ∈ copied, callKind act = none) (detaches : ∀ act ∈ detached, callKind act = none) (count : Int) :
    calls callKind (.bcast .iov count :: (front ++ (copied ++ (detached ++ [.gather])))) = [.bcast .iov count,.gather] := by
  have first := @calls_append _ callKind [.bcast .iov count] (front ++ (copied ++ (detached ++ [.gather])))
  rw [List.singleton_append] at first
  rw [first,calls_append,calls_append,calls_append,calls_quiet (attaching_quiet attaches),calls_quiet copies,
    calls_quiet detaches]
  rfl

theorem segmentCopies_local : ∀ act ∈ segmentCopies pageSize lbuf offset blocks, callKind act = none := by
  intro act member
  obtain ⟨_,_,_,_,rfl⟩ := segmentCopies_mem.mp member
  rfl

-- What a receiver carries from one iteration to the next while no attach call fails.
structure Sound (attachNow : Nat → Bool) (pageSize nblocks : Nat) (iov : Nat → List IoVec) (j : Nat) (acts : List Stamped)
    (s : XpmemState) : Prop where
  length : s.attachedSeglist.length = nblocks
  last : s.lastpagebaseAddr = lastPage pageSize 0 (seen attachNow iov j)
  curr : s.currAttachPtr ≠ .failed
  segments : ∀ segment ∈ s.attachedSeglist, segment ≠ .failed
  copies : NoFailedCopy acts
  calls : calls stampedKind acts = (List.range j).flatMap (rtsFin nblocks)

section
variable {attachNow detachNow : Nat → Bool} {pageSize lbuf nblocks iters : Nat} {driver : XpmemDriver} {iov : Nat → List IoVec}
  {s : XpmemState} {acts : List Stamped}

-- The attach loop of an iteration that attaches decides how its attach part ends.
theorem attachSegments_out (count : (iov j).length = nblocks) : (attachSegments true pageSize driver (iov j) nblocks j s).out =
    (forRange (iov j).length (attachPass pageSize (driver.attach j) (iov j)) {s with apid := driver.get j}).out := by
  rw [count]
  rfl

theorem attach_sound (sound : Sound attachNow pageSize nblocks iov j acts s) (count : (iov j).length = nblocks)
    (granted : attachNow j = true → Granted attachNow pageSize driver iov j) :
    ∃ t, (attachSegments (attachNow j) pageSize driver (iov j) nblocks j s).out = .ok t ∧
      t.attachedSeglist.length = nblocks ∧ t.lastpagebaseAddr = lastPage pageSize 0 (seen attachNow iov (j+1)) ∧
      t.currAttachPtr ≠ .failed ∧ ∀ segment ∈ t.attachedSeglist, segment ≠ .failed := by
  rw [seen_succ]
  cases now : attachNow j with
  | false => exact ⟨s,rfl,sound.length,by simpa using sound.last,sound.curr,sound.segments⟩
  | true =>
      have fresh_valid : ∀ {acts : List Act} {asked : Nat × Nat} {segment : SegPtr}, Fresh acts asked segment → segment ≠ .failed := by
        intro acts asked segment given
        obtain ⟨vaddr,rfl,_⟩ := given
        exact nofun
      obtain ⟨t,ended,attached⟩ := @attach_loop pageSize (driver.attach j) (iov j) {s with apid := driver.get j} (iov j).length
        (Nat.le_refl _) (by simp only [sound.length]; omega) (by
          intro i _ v known asks
          have succeeded := granted now i v known (by rw [lastPage_append,← sound.last]; exact asks)
          intro failed
          rw [answer_failed.mp failed] at succeeded
          cases succeeded)
      have page := attached.last
      simp only [List.take_length] at page
      refine ⟨t,?_,attached.length.trans sound.length,?_,?_,?_⟩
      · rw [attachSegments_out count]
        exact ended
      · rw [page,sound.last,if_pos rfl,lastPage_append]
      · rcases attached.curr with ⟨held,_⟩ | fresh
        · rw [held]; exact sound.curr
        · exact fresh_valid fresh
      · intro segment member
        obtain ⟨k,bound,rfl⟩ := List.getElem_of_mem member
        have length := attached.length.trans sound.length
        obtain ⟨v,other,_,held,choice⟩ := attached.segments k (by omega)
        rw [List.getElem?_eq_getElem bound] at held
        cases held
        rcases choice with fresh | ⟨_,carried,_⟩
        · exact fresh_valid fresh
        · rw [carried]; exact sound.curr

theorem iteration_sound (sound : Sound attachNow pageSize nblocks iov j acts s) (count : (iov j).length = nblocks)
    (granted : attachNow j = true → Granted attachNow pageSize driver iov j) :
    ∃ t, (xpmemIteration .receiver (attachNow j) (detachNow j) pageSize lbuf driver (iov j) nblocks j s).out = .ok t ∧
      Sound attachNow pageSize nblocks iov (j+1) (acts ++
        (xpmemIteration .receiver (attachNow j) (detachNow j) pageSize lbuf driver (iov j) nblocks j s).acts.map (Prod.mk (some j))) t := by
  obtain ⟨t,attached,length,last,curr,segments⟩ := attach_sound sound count granted
  rw [receiver_iteration attached count length]
  refine ⟨t,rfl,length,last,curr,segments,?_,?_⟩
  · intro stamp dst pgOff len member
    rcases List.mem_append.mp member with before | now
    · exact sound.copies stamp dst pgOff len before
    · obtain ⟨act,present,equal⟩ := List.mem_map.mp now
      cases equal
      simp only [List.mem_cons,List.mem_append,List.not_mem_nil,or_false] at present
      rcases present with bcast | front | copied | detached | gather
      · cases bcast
      · cases attachSegments_quiet _ _ _ _ _ _ _ _ front
      · obtain ⟨k,v,segment,pair,same⟩ := segmentCopies_mem.mp copied
        injection same with _ failed
        exact segments segment (List.of_mem_zip (List.mem_of_getElem? pair)).2 failed.symm
      · obtain ⟨_,_,same⟩ := detached_acts _ detached
        cases same
      · cases gather
  · rw [calls_append,sound.calls,stamped_calls,iteration_calls (attachSegments_quiet _ _ _ _ _ _ _) segmentCopies_local detached_quiet,
      List.range_succ,List.flatMap_append,List.flatMap_singleton]
    rfl

theorem first_refused (sound : Sound attachNow pageSize nblocks iov j acts s) (refused : ¬ Granted attachNow pageSize driver iov j) :
    ∃ i v, (iov j)[i]? = some v ∧ Asks pageSize (lastPage pageSize s.lastpagebaseAddr ((iov j).take i)) v ∧
      answer pageSize (driver.attach j) i v = .failed ∧
      ∀ k < i, ∀ w, (iov j)[k]? = some w → Asks pageSize (lastPage pageSize s.lastpagebaseAddr ((iov j).take k)) w →
        answer pageSize (driver.attach j) k w ≠ .failed := by
  classical
  have some_bad : ∃ i v, (iov j)[i]? = some v ∧ Asks pageSize (lastPage pageSize s.lastpagebaseAddr ((iov j).take i)) v ∧
      answer pageSize (driver.attach j) i v = .failed := by
    refine Classical.byContradiction fun none_bad => refused fun i v known asks => ?_
    refine Classical.byContradiction fun failed => none_bad ⟨i,v,known,?_,answer_failed.mpr (by simpa using failed)⟩
    rw [sound.last,← lastPage_append]
    exact asks
  obtain ⟨v,known,asks,failed⟩ := Nat.find_spec some_bad
  exact ⟨Nat.find some_bad,v,known,asks,failed,
    fun k below w there asked refused => Nat.find_min some_bad below ⟨w,there,asked,refused⟩⟩

theorem iteration_refused (sound : Sound attachNow pageSize nblocks iov j acts s) (count : (iov j).length = nblocks)
    (now : attachNow j = true) (refused : ¬ Granted attachNow pageSize driver iov j) :
    (∃ dst pgOff len, .memcpySegment dst .failed pgOff len ∈
      (xpmemIteration .receiver (attachNow j) (detachNow j) pageSize lbuf driver (iov j) nblocks j s).acts) ∨
    ∃ apid, (xpmemIteration .receiver (attachNow j) (detachNow j) pageSize lbuf driver (iov j) nblocks j s).out =
        .error (.cleanup apid) ∧
      calls callKind (xpmemIteration .receiver (attachNow j) (detachNow j) pageSize lbuf driver (iov j) nblocks j s).acts =
        [.bcast .iov (iovecBytes nblocks)] := by
  obtain ⟨i,v,known,asks,failed,first⟩ := first_refused sound refused
  have loop_out := @attachSegments_out pageSize nblocks driver iov s j count
  rw [now]
  rcases @attach_refusal pageSize (driver.attach j) (iov j) i {s with apid := driver.get j} v
    (by simp only [sound.length]; omega) known asks failed first with ⟨t,ended,length,kept⟩ | ⟨apid,ended⟩
  · left
    rw [receiver_iteration (loop_out.trans ended) count (length.trans sound.length)]
    have member := (@segmentCopies_mem pageSize lbuf 0 ((iov j).zip t.attachedSeglist) _).mpr
      ⟨_,v,.failed,List.getElem?_zip_eq_some.mpr ⟨known,kept⟩,rfl⟩
    exact ⟨_,_,_,List.mem_cons_of_mem _ (List.mem_append_right _ (List.mem_append_left _ member))⟩
  · right
    rw [receiver_refused (loop_out.trans ended)]
    refine ⟨apid,rfl,?_⟩
    have quiet := attaching_quiet (attachSegments_quiet true pageSize driver (iov j) nblocks j s)
    have parts := @calls_append _ callKind [.bcast .iov (iovecBytes nblocks)]
      (attachSegments true pageSize driver (iov j) nblocks j s).acts
    rw [calls_quiet quiet] at parts
    exact parts

theorem start_sound : Sound attachNow pageSize nblocks iov 0 [] (XpmemState.start nblocks apid) :=
  ⟨by simp [XpmemState.start],rfl,nofun,by simp [XpmemState.start],nofun,rfl⟩

-- The receiver's loop through the first `count` iterations.
theorem loop_sound_upto (lengths : ∀ j, (iov j).length = nblocks) (apid : Nat)
    (granted : ∀ j < count, attachNow j = true → Granted attachNow pageSize driver iov j) :
    ∃ s, (xpmemLoop .receiver attachNow detachNow count pageSize lbuf driver iov nblocks apid).out = .ok s ∧
      Sound attachNow pageSize nblocks iov count
        (xpmemLoop .receiver attachNow detachNow count pageSize lbuf driver iov nblocks apid).acts s := by
  refine forRange_invariant (Sound attachNow pageSize nblocks iov) ?_ start_sound
  intro j acts s below sound
  exact iteration_sound sound (lengths j) (granted j below)

theorem loop_refused (lengths : ∀ j, (iov j).length = nblocks) (apid : Nat)
    (refused : ¬ ∀ j < iters, attachNow j = true → Granted attachNow pageSize driver iov j) :
    (¬ NoFailedCopy (xpmemLoop .receiver attachNow detachNow iters pageSize lbuf driver iov nblocks apid).acts) ∨
    ∃ j < iters, ∃ last, (xpmemLoop .receiver attachNow detachNow iters pageSize lbuf driver iov nblocks apid).out =
        .error (.cleanup last) ∧
      calls stampedKind (xpmemLoop .receiver attachNow detachNow iters pageSize lbuf driver iov nblocks apid).acts =
        (List.range j).flatMap (rtsFin nblocks) ++ [(some j,.bcast .iov (iovecBytes nblocks))] := by
  classical
  have some_bad : ∃ j, j < iters ∧ attachNow j = true ∧ ¬ Granted attachNow pageSize driver iov j :=
    Classical.byContradiction fun none_bad => refused fun j below now =>
      Classical.byContradiction fun failed => none_bad ⟨j,below,now,failed⟩
  obtain ⟨below,now,failed⟩ := Nat.find_spec some_bad
  have first : ∀ k < Nat.find some_bad, attachNow k = true → Granted attachNow pageSize driver iov k := fun k earlier now =>
    Classical.byContradiction fun failed => Nat.find_min some_bad earlier ⟨Nat.lt_trans earlier below,now,failed⟩
  generalize Nat.find some_bad = j at *
  obtain ⟨s,before,sound⟩ := @loop_sound_upto attachNow detachNow pageSize lbuf nblocks driver iov j lengths apid first
  let body : Nat → XpmemState → Run Fault Stamped XpmemState := fun j s =>
    (xpmemIteration .receiver (attachNow j) (detachNow j) pageSize lbuf driver (iov j) nblocks j s).label (Prod.mk (some j))
  have whole := @forRange_resume _ _ _ j (XpmemState.start nblocks apid) s iters body before below
  change (¬ NoFailedCopy (forRange iters body _).acts) ∨ ∃ j < iters, ∃ last, (forRange iters body _).out = _ ∧
    calls stampedKind (forRange iters body _).acts = _
  rw [whole]
  rcases @iteration_refused attachNow detachNow pageSize lbuf nblocks driver iov s _ j sound (lengths j) now failed with
    ⟨dst,pgOff,len,member⟩ | ⟨last,ended,called⟩
  · left
    intro clean
    have issued : (some j,Act.memcpySegment dst .failed pgOff len) ∈ (body j s).acts := List.mem_map.mpr ⟨_,member,rfl⟩
    exact clean (some j) dst pgOff len (List.mem_append_right _ (Run.chain_keeps _ _ issued))
  · right
    have stopped : (body j s).out = .error (.cleanup last) := ended
    have here : calls stampedKind (body j s).acts = [(some j,.bcast .iov (iovecBytes nblocks))] := by
      change calls stampedKind (List.map _ _) = _
      rw [stamped_calls,called]
      rfl
    rw [Run.chain_error stopped]
    refine ⟨j,below,last,rfl,?_⟩
    rw [calls_append,here]
    exact congrArg (· ++ _) sound.calls

end
theorem release_calls (apid : Nat) : calls stampedKind (release apid) = [] := by
  unfold release
  split <;> rfl

theorem sender_loop (attachNow detachNow : Nat → Bool) (iters pageSize lbuf : Nat) (driver : XpmemDriver)
    (iov : Nat → List IoVec) (nblocks apid : Nat) : xpmemLoop .sender attachNow detachNow iters pageSize lbuf driver iov nblocks apid =
      ⟨(List.range iters).flatMap (rtsFin nblocks),.ok (XpmemState.start nblocks apid)⟩ :=
  @forRange_exact XpmemState Fault Stamped iters _ (rtsFin nblocks) (fun _ => XpmemState.start nblocks apid) fun _ _ => rfl

theorem calls_head (first : Stamped) (quiet : stampedKind first = none) (rest : List Stamped) :
    calls stampedKind (first :: (none,.bcast .segid 8) :: rest) = (none,.bcast .segid 8) :: calls stampedKind rest := by
  simp only [calls,List.filter_cons,quiet]
  rfl

theorem calls_ended (first : Stamped) (quiet : stampedKind first = none) (loop : List Stamped) (apid : Nat) :
    calls stampedKind (first :: (none,.bcast .segid 8) :: (loop ++ (none,.barrier) :: release apid)) =
      (none,.bcast .segid 8) :: (calls stampedKind loop ++ [(none,.barrier)]) := by
  have last : calls stampedKind ((none,.barrier) :: release apid) = [(none,.barrier)] :=
    congrArg ((none,Act.barrier) :: ·) (release_calls apid)
  rw [calls_head first quiet,calls_append,last]

theorem calls_stopped (first : Stamped) (quiet : stampedKind first = none) (loop : List Stamped) (apid : Nat) :
    calls stampedKind (first :: (none,.bcast .segid 8) :: (loop ++ release apid)) =
      (none,.bcast .segid 8) :: calls stampedKind loop := by
  rw [calls_head first quiet,calls_append,release_calls,List.append_nil]

theorem rtsFin_length (nblocks count : Nat) : ((List.range count).flatMap (rtsFin nblocks)).length = count * 2 := by
  simp [rtsFin]

-- The two ranks of one call, the lists received having the length of the sender's.
theorem benchmark_iff (attachNow detachNow : Nat → Bool) (iters pageSize : Nat) {bufsize blocksize : Nat}
    (count : bufsize / blocksize ≤ intMax) {receiver sender : XpmemDriver} (recvVersion : 0 ≤ receiver.version)
    (sendVersion : 0 ≤ sender.version) {iov : Nat → List IoVec} (lengths : ∀ j, (iov j).length = bufsize / blocksize)
    (own : Nat → List IoVec) (recvBuf sendBuf recvApid sendApid : Nat) :
    KeepsProtocol (benchmarkXpmem .receiver attachNow detachNow iters pageSize recvBuf receiver iov bufsize blocksize recvApid)
      (benchmarkXpmem .sender attachNow detachNow iters pageSize sendBuf sender own bufsize blocksize sendApid) ↔
    ∀ j < iters, attachNow j = true → Granted attachNow pageSize receiver iov j := by
  unfold KeepsProtocol
  have narrow : toInt (bufsize / blocksize) = ((bufsize / blocksize : Nat) : Int) := toInt_exact count
  have sent := sender_loop attachNow detachNow iters pageSize sendBuf sender own (bufsize / blocksize) sendApid
  rw [← narrow] at sent
  rw [benchmark_ended sendVersion (congrArg Run.out sent),sent,calls_ended _ rfl]
  have issued : calls stampedKind ((List.range iters).flatMap (rtsFin (bufsize / blocksize))) =
      (List.range iters).flatMap (rtsFin (bufsize / blocksize)) := by rw [calls_flatMap]; rfl
  rw [issued]
  constructor
  · intro given
    obtain ⟨clean,same⟩ := given
    apply Classical.byContradiction
    intro refused
    rcases @loop_refused attachNow detachNow pageSize recvBuf (bufsize / blocksize) iters receiver iov lengths recvApid refused with
      failed | ⟨j,below,last,stopped,called⟩
    · rw [← narrow] at failed
      exact failed fun stamp dst pgOff len member => clean stamp dst pgOff len (benchmark_keeps recvVersion member)
    · rw [← narrow] at stopped called
      rw [benchmark_stopped recvVersion stopped,calls_stopped _ rfl,called] at same
      have sizes := congrArg List.length same
      simp only [List.length_cons,List.length_append,rtsFin_length,List.length_nil] at sizes
      omega
  · intro granted
    obtain ⟨s,ended,sound⟩ := @loop_sound_upto attachNow detachNow pageSize recvBuf (bufsize / blocksize) receiver iov iters
      lengths recvApid granted
    rw [← narrow] at ended sound
    rw [benchmark_ended recvVersion ended]
    refine ⟨?_,by rw [calls_ended _ rfl,sound.calls]⟩
    intro stamp dst pgOff len member
    simp only [List.mem_cons,List.mem_append] at member
    rcases member with memset | bcast | copied | barrier | released
    · cases memset
    · cases bcast
    · exact sound.copies stamp dst pgOff len copied
    · cases barrier
    · cases release_mem released

-- Both benchmarks, for lists of any blocks: the attach calls a receiver gets to make are
-- those for blocks of at least a page and for pages other than the one remembered.
theorem attach_failure_keeps_protocol (iters pageSize : Nat) {bufsize blocksize : Nat} (count : bufsize / blocksize ≤ intMax)
    {receiver sender : XpmemDriver} (recvVersion : 0 ≤ receiver.version) (sendVersion : 0 ≤ sender.version)
    {iov : Nat → List IoVec} (lengths : ∀ j, (iov j).length = bufsize / blocksize) (own : Nat → List IoVec)
    (recvBuf sendBuf recvApid sendApid : Nat) :
    (KeepsProtocol (benchmarkXpmemNocache .receiver iters pageSize recvBuf receiver iov bufsize blocksize recvApid)
      (benchmarkXpmemNocache .sender iters pageSize sendBuf sender own bufsize blocksize sendApid) ↔
      ∀ j < iters, ∀ i v, (iov j)[i]? = some v →
        Asks pageSize (lastPage pageSize 0 ((List.range j).flatMap iov ++ (iov j).take i)) v →
        (receiver.attach j i (request pageSize v).1 (request pageSize v).2).isSome) ∧
    (KeepsProtocol (benchmarkXpmemCached .receiver iters pageSize recvBuf receiver iov bufsize blocksize recvApid)
      (benchmarkXpmemCached .sender iters pageSize sendBuf sender own bufsize blocksize sendApid) ↔
      (0 < iters → ∀ i v, (iov 0)[i]? = some v → Asks pageSize (lastPage pageSize 0 ((iov 0).take i)) v →
        (receiver.attach 0 i (request pageSize v).1 (request pageSize v).2).isSome)) := by
  constructor
  · apply (benchmark_iff _ _ iters pageSize count recvVersion sendVersion lengths own recvBuf sendBuf recvApid sendApid).trans
    simp [Granted,seen]
  · apply (benchmark_iff _ _ iters pageSize count recvVersion sendVersion lengths own recvBuf sendBuf recvApid sendApid).trans
    constructor
    · intro granted some_iteration
      exact granted 0 some_iteration rfl
    · rintro granted j below now
      obtain rfl : j = 0 := by simpa [useCache] using now
      exact granted below

-- Eight blocks of a quarter page, nothing ever refused.
theorem attach_failure_keeps_protocol_granted :
    KeepsProtocol (benchmarkXpmemNocache .receiver 110 4096 65536 ⟨1,fun _ => 7,fun _ _ offset _ => some (1048576 + offset)⟩
        (fun _ => initIov 16384 8 1024) 8192 1024 0)
      (benchmarkXpmemNocache .sender 110 4096 16384 ⟨1,fun _ => 7,fun _ _ _ _ => none⟩ (fun _ => initIov 16384 8 1024) 8192 1024 0) :=
  (@attach_failure_keeps_protocol 110 4096 8192 1024 (by decide) ⟨1,fun _ => 7,fun _ _ offset _ => some (1048576 + offset)⟩
    ⟨1,fun _ => 7,fun _ _ _ _ => none⟩ (by decide) (by decide) (fun _ => initIov 16384 8 1024) (fun _ => initIov_length)
    (fun _ => initIov 16384 8 1024) 65536 16384 0 0).1.mpr fun _ _ _ _ _ _ => rfl

-- The first attach call fails: for a block below the page size the receiver leaves the
-- benchmark in front of the Gather, for a whole page it copies from (void *)-1.
theorem attach_failure_breaks_protocol :
    ¬ KeepsProtocol (benchmarkXpmemNocache .receiver 110 4096 65536 ⟨1,fun _ => 7,fun _ _ _ _ => none⟩
        (fun _ => initIov 16384 8 1024) 8192 1024 0)
      (benchmarkXpmemNocache .sender 110 4096 16384 ⟨1,fun _ => 7,fun _ _ _ _ => none⟩ (fun _ => initIov 16384 8 1024) 8192 1024 0) ∧
    ¬ KeepsProtocol (benchmarkXpmemCached .receiver 110 4096 65536 ⟨1,fun _ => 7,fun _ _ _ _ => none⟩
        (fun _ => initIov 16384 2 4096) 8192 4096 0)
      (benchmarkXpmemCached .sender 110 4096 16384 ⟨1,fun _ => 7,fun _ _ _ _ => none⟩ (fun _ => initIov 16384 2 4096) 8192 4096 0) := by
  constructor
  · intro kept
    have granted := (@benchmark_iff _ _ 110 4096 8192 1024 (by decide) ⟨1,fun _ => 7,fun _ _ _ _ => none⟩
      ⟨1,fun _ => 7,fun _ _ _ _ => none⟩ (by decide) (by decide) (fun _ => initIov 16384 8 1024) (fun _ => initIov_length)
      (fun _ => initIov 16384 8 1024) 65536 16384 0 0).mp kept
    cases granted 0 (by decide) rfl 0 _ rfl (fun _ => by decide)
  · intro kept
    have granted := (@benchmark_iff _ _ 110 4096 8192 4096 (by decide) ⟨1,fun _ => 7,fun _ _ _ _ => none⟩
      ⟨1,fun _ => 7,fun _ _ _ _ => none⟩ (by decide) (by decide) (fun _ => initIov 16384 2 4096) (fun _ => initIov_length)
      (fun _ => initIov 16384 2 4096) 65536 16384 0 0).mp kept
    cases granted 0 (by decide) rfl 0 _ rfl (fun _ => by decide)

end MpidtBench.XpmemFailure
