import MpidtBench.Library.Ledger
import MpidtBench.Proofs.XpmemLive

namespace MpidtBench.XpmemBalance
open Traced CInteger ScatterGather Ledger MpidtBench XpmemLoops XpmemMapped XpmemBounds XpmemLive

def address : SegPtr → Option Nat
  | .mapped a => some a.vaddr
  | _ => none

-- The addresses xpmem_attach returns and xpmem_detach is given.
def attachmentEntry : Act → Option (Entry (Option Nat))
  | .xpmemAttach _ _ (.mapped a) => some (.acquire (some a.vaddr))
  | .xpmemDetach segment => some (.release (address segment))
  | _ => none
def attachments (acts : List Act) : List (Entry (Option Nat)) := acts.filterMap attachmentEntry

-- Every address attached is detached once after that, and no other is.
def DetachedOnce (acts : List Stamped) : Prop := Settled (attachments (acts.map Prod.snd))

def addresses (segments : List SegPtr) : List (Option Nat) := segments.map address

-- A block that the attach loop does not ask for, entered with `last` remembered.
def Skipped (pageSize last : Nat) (iov : List IoVec) (k : Nat) : Prop :=
  ∃ v, iov[k]? = some v ∧ ¬ Asks pageSize (lastPage pageSize last (iov.take k)) v

structure Account (pageSize last : Nat) (iov : List IoVec) (i : Nat) (acts : List Act) (s : XpmemState) : Prop where
  keeps : released (attachments acts) = []
  most : (acquired (attachments acts)).length ≤ i
  fewer : (∃ k < i, Skipped pageSize last iov k) → (acquired (attachments acts)).length < i
  all : (∀ k < i, ¬ Skipped pageSize last iov k) → attachments acts = (addresses (s.attachedSeglist.take i)).map .acquire

theorem attachments_append (first second : List Act) : attachments (first ++ second) = attachments first ++ attachments second :=
  List.filterMap_append

@[simp] theorem attachments_bcast (what : Message) (count : Int) (rest : List Act) :
    attachments (.bcast what count :: rest) = attachments rest := rfl

theorem attachments_none {acts : List Act} (others : ∀ act ∈ acts, attachmentEntry act = none) : attachments acts = [] :=
  List.filterMap_eq_nil_iff.mpr others

theorem attachments_detaches {segments : List SegPtr} (mapped : ∀ segment ∈ segments, ∃ a, segment = .mapped a) :
    attachments (detaches segments) = (addresses segments).map .release := by
  induction segments with
  | nil => rfl
  | cons segment rest ih =>
      obtain ⟨a,rfl⟩ := mapped segment (by simp)
      exact congrArg (.release (some a.vaddr) :: ·) (ih fun other member => mapped other (List.mem_cons_of_mem _ member))

section
variable {pageSize : Nat} {attach : Nat → Nat → Nat → Option Nat} {iov : List IoVec} {s start : XpmemState}

theorem take_set {segments : List SegPtr} (inside : i < segments.length) (segment : SegPtr) :
    (segments.set i segment).take (i+1) = segments.take i ++ [segment] := by
  rw [List.take_add_one,List.getElem?_set_self inside,Option.toList_some,List.take_set_of_le (Nat.le_refl i)]

theorem account_step {acts : List Act} {v : IoVec} (attached : Attached pageSize attach iov start i acts s)
    (account : Account pageSize start.lastpagebaseAddr iov i acts s) (known : iov[i]? = some v) (room : i < start.attachedSeglist.length)
    (granted : (attach i (request pageSize v).1 (request pageSize v).2).isSome) :
    ∃ t, (attachPass pageSize attach iov i s).out = .ok t ∧
      Account pageSize start.lastpagebaseAddr iov (i+1) (acts ++ (attachPass pageSize attach iov i s).acts) t := by
  have room : i < s.attachedSeglist.length := attached.length ▸ room
  have earlier : (∀ k < i+1, ¬ Skipped pageSize start.lastpagebaseAddr iov k) → ∀ k < i, ¬ Skipped pageSize start.lastpagebaseAddr iov k :=
    fun none k before => none k (Nat.lt_succ_of_lt before)
  by_cases asks : Asks pageSize s.lastpagebaseAddr v
  · obtain ⟨vaddr,reached⟩ := Option.isSome_iff_exists.mp granted
    have mapped : answer pageSize attach i v = .mapped ⟨(request pageSize v).1,(request pageSize v).2,vaddr⟩ := by
      rw [answer,reached]
      rfl
    rw [attach_asked known room asks fun _ => by simp [mapped],mapped]
    have more : attachments (acts ++ [.xpmemAttach (request pageSize v).1 (request pageSize v).2
        (.mapped ⟨(request pageSize v).1,(request pageSize v).2,vaddr⟩)]) = attachments acts ++ [.acquire (some vaddr)] :=
      attachments_append _ _
    refine ⟨_,rfl,?_,?_,?_,?_⟩
    · rw [more,released_append,account.keeps]
      rfl
    · rw [more,acquired_append,List.length_append]
      exact Nat.add_le_add_right account.most 1
    · rintro ⟨k,below,skipped⟩
      rw [more,acquired_append,List.length_append]
      by_cases here : k = i
      · subst here
        obtain ⟨w,there,silent⟩ := skipped
        rw [known] at there
        cases there
        exact absurd (attached.last ▸ asks) silent
      · exact Nat.add_lt_add_right (account.fewer ⟨k,by omega,skipped⟩) 1
    · intro none
      rw [more,account.all (earlier none),take_set room,addresses,addresses,List.map_append,List.map_append]
      rfl
  · obtain ⟨small,same⟩ := not_asks asks
    have skipped : Skipped pageSize start.lastpagebaseAddr iov i := ⟨v,known,attached.last ▸ asks⟩
    rw [attach_skipped known room small same,List.append_nil]
    exact ⟨_,rfl,account.keeps,Nat.le_succ_of_le account.most,fun _ => Nat.lt_succ_of_le account.most,
      fun none => absurd skipped (none i (Nat.lt_succ_self i))⟩

end

section
variable {attachNow detachNow : Bool} {pageSize lbuf : Nat} {driver : XpmemDriver} {iov : List IoVec} {s start : XpmemState}

structure Granted (pageSize : Nat) (driver : XpmemDriver) (iov : List IoVec) : Prop where
  page : ∀ v ∈ iov, v.iovLen < pageSize → pageBase pageSize v.iovBase ≠ 0
  granted : ∀ j i v, iov[i]? = some v → (driver.attach j i (request pageSize v).1 (request pageSize v).2).isSome

theorem attach_account (list : Granted pageSize driver iov) (room : iov.length ≤ start.attachedSeglist.length) :
    ∃ t, (forRange iov.length (attachPass pageSize (driver.attach j) iov) start).out = .ok t ∧
      t.lastpagebaseAddr = lastPage pageSize start.lastpagebaseAddr iov ∧
      Account pageSize start.lastpagebaseAddr iov iov.length
        (forRange iov.length (attachPass pageSize (driver.attach j) iov) start).acts t := by
  obtain ⟨t,ended,attached,account⟩ := @forRange_invariant Act XpmemState Fault iov.length start
    (fun i acts s => Attached pageSize (driver.attach j) iov start i acts s ∧ Account pageSize start.lastpagebaseAddr iov i acts s)
    (attachPass pageSize (driver.attach j) iov) (by
      intro i acts s below given
      obtain ⟨attached,account⟩ := given
      have known : iov[i]? = some iov[i] := List.getElem?_eq_getElem below
      obtain ⟨t,ended,next⟩ := attached_step attached known (by omega) fun _ => granted_answer (list.granted j i _ known)
      obtain ⟨u,again,counted⟩ := account_step attached account known (by omega) (list.granted j i _ known)
      rw [ended] at again
      cases again
      exact ⟨t,ended,next,counted⟩)
    ⟨⟨rfl,rfl,rfl,.inl ⟨rfl,nofun⟩,nofun,nofun⟩,rfl,Nat.le_refl 0,fun given => absurd given.choose_spec.1 (Nat.not_lt_zero _),fun _ => rfl⟩
  refine ⟨t,ended,?_,account⟩
  rw [attached.last,List.take_length]

structure Front (attachNow : Bool) (pageSize : Nat) (iov : List IoVec) (s : XpmemState) (made : List (Entry (Option Nat)))
    (t : XpmemState) : Prop where
  length : t.attachedSeglist.length = iov.length
  kept : attachNow = false → t = s
  page : attachNow = true → t.lastpagebaseAddr = lastPage pageSize s.lastpagebaseAddr iov
  keeps : released made = []
  idle : attachNow = false → made = []
  most : (acquired made).length ≤ iov.length
  fewer : (∃ k < iov.length, Skipped pageSize s.lastpagebaseAddr iov k) → attachNow = true → (acquired made).length < iov.length
  all : (∀ k < iov.length, ¬ Skipped pageSize s.lastpagebaseAddr iov k) → attachNow = true →
    made = (addresses t.attachedSeglist).map .acquire

theorem front_account (list : Granted pageSize driver iov) (holding : Holding pageSize iov j s) (attaches : j = 0 → attachNow = true) :
    ∃ t, (attachSegments attachNow pageSize driver iov iov.length j s).out = .ok t ∧ Holding pageSize iov (j+1) t ∧
      Front attachNow pageSize iov s (attachments (attachSegments attachNow pageSize driver iov iov.length j s).acts) t := by
  cases attachNow with
  | false =>
      have later : 0 < j := Nat.pos_of_ne_zero fun zero => by cases attaches zero
      exact ⟨s,rfl,⟨holding.length,holding.curr,fun _ => holding.segments later⟩,holding.length,fun _ => rfl,
        fun on => absurd on Bool.false_ne_true,rfl,fun _ => rfl,Nat.zero_le _,fun _ on => absurd on Bool.false_ne_true,
        fun _ on => absurd on Bool.false_ne_true⟩
  | true =>
      obtain ⟨t,ended,next,_⟩ := attach_holding list.page (list.granted j) holding
      obtain ⟨u,again,page,account⟩ := @attach_account pageSize driver iov {s with apid := driver.get j} j list
        (Nat.le_of_eq holding.length.symm)
      have shape : attachSegments true pageSize driver iov iov.length j s = ⟨.xpmemGet (driver.get j) ::
          (forRange iov.length (attachPass pageSize (driver.attach j) iov) {s with apid := driver.get j}).acts,.ok u⟩ := by
        simp only [attachSegments,if_true,Run.emit_chain,Int.toNat_natCast,again]
      rw [shape] at ended ⊢
      cases ended
      refine ⟨_,rfl,next,next.length,fun off => absurd off.symm Bool.false_ne_true,fun _ => page,account.keeps,
        fun off => absurd off.symm Bool.false_ne_true,account.most,fun skipped _ => account.fewer skipped,fun none _ => ?_⟩
      have whole := account.all none
      rw [List.take_of_length_le (Nat.le_of_eq next.length)] at whole
      exact whole

-- An iteration detaches, when it does, every entry of its list.
theorem iteration_account (list : Granted pageSize driver iov) (holding : Holding pageSize iov j s) (attaches : j = 0 → attachNow = true) :
    ∃ t made, (xpmemIteration .receiver attachNow detachNow pageSize lbuf driver iov iov.length j s).out = .ok t ∧
      Holding pageSize iov (j+1) t ∧ Front attachNow pageSize iov s made t ∧
      attachments (xpmemIteration .receiver attachNow detachNow pageSize lbuf driver iov iov.length j s).acts =
        made ++ if detachNow then (addresses t.attachedSeglist).map .release else [] := by
  obtain ⟨t,attached,next,front⟩ := @front_account attachNow pageSize driver iov s j list holding attaches
  have mapped : ∀ segment ∈ t.attachedSeglist, ∃ a, segment = .mapped a := by
    intro segment member
    obtain ⟨k,held⟩ := List.mem_iff_getElem?.mp member
    have inside : k < iov.length := by
      rw [← next.length]
      exact (List.getElem?_eq_some_iff.mp held).1
    obtain ⟨other,there,vaddr,same⟩ := next.segments (Nat.succ_pos j) k _ (List.getElem?_eq_getElem inside)
    rw [held] at there
    cases there
    exact ⟨_,same⟩
  have copies : attachments (segmentCopies pageSize lbuf 0 (iov.zip t.attachedSeglist)) = [] := by
    apply attachments_none
    intro act member
    obtain ⟨_,_,_,_,rfl⟩ := segmentCopies_mem.mp member
    rfl
  have detached : attachments (if detachNow then detaches t.attachedSeglist else []) =
      if detachNow then (addresses t.attachedSeglist).map .release else [] := by
    cases detachNow with
    | false => rfl
    | true => exact attachments_detaches mapped
  rw [receiver_iteration attached rfl next.length]
  refine ⟨t,_,rfl,next,front,?_⟩
  rw [attachments_bcast,attachments_append,attachments_append,attachments_append,copies,detached]
  exact congrArg _ (List.append_nil _)

end

section
variable {attachNow detachNow : Nat → Bool} {pageSize lbuf iters : Nat} {driver : XpmemDriver} {iov : List IoVec}

theorem loop_account (list : Granted pageSize driver iov) (attaches : attachNow 0 = true) (apid : Nat)
    (account : Nat → List (Entry (Option Nat)) → XpmemState → Prop)
    (step : ∀ j entries made s t, j < iters → account j entries s → Front (attachNow j) pageSize iov s made t →
      account (j+1) (entries ++ (made ++ if detachNow j then (addresses t.attachedSeglist).map .release else [])) t)
    (initial : account 0 [] (XpmemState.start iov.length apid)) :
    ∃ s, (xpmemLoop .receiver attachNow detachNow iters pageSize lbuf driver (fun _ => iov) iov.length apid).out = .ok s ∧
      account iters (attachments ((xpmemLoop .receiver attachNow detachNow iters pageSize lbuf driver (fun _ => iov) iov.length
        apid).acts.map Prod.snd)) s := by
  obtain ⟨s,ended,_,kept⟩ := @forRange_invariant Stamped XpmemState Fault iters (XpmemState.start iov.length apid)
    (fun j acts s => Holding pageSize iov j s ∧ account j (attachments (acts.map Prod.snd)) s)
    (fun j s => (xpmemIteration .receiver (attachNow j) (detachNow j) pageSize lbuf driver iov iov.length j s).label
      (Prod.mk (some j))) (by
      intro j acts s below given
      obtain ⟨holding,kept⟩ := given
      obtain ⟨t,made,ended,next,front,entries⟩ := @iteration_account (attachNow j) (detachNow j) pageSize lbuf driver iov s j list holding
        (fun zero => by rw [zero]; exact attaches)
      refine ⟨t,ended,next,?_⟩
      rw [List.map_append,attachments_append,stamped_acts,entries]
      exact step j _ made s t below kept front)
    ⟨start_holding apid,initial⟩
  exact ⟨s,ended,kept⟩

-- Every block attached in every iteration.
theorem nocache_balances (list : Granted pageSize driver iov) (apid : Nat)
    (none : ∀ j < iters, ∀ last, (j = 0 → last = 0) → ∀ k < iov.length, ¬ Skipped pageSize last iov k) :
    DetachedOnce (xpmemLoop .receiver (fun _ => true) (fun _ => true) iters pageSize lbuf driver (fun _ => iov) iov.length apid).acts := by
  obtain ⟨_,_,_,balanced⟩ := @loop_account (fun _ => true) (fun _ => true) pageSize lbuf iters driver iov list rfl apid
    (fun j entries s => (j = 0 → s.lastpagebaseAddr = 0) ∧ Settled entries) (by
      intro j entries made s t below given front
      obtain ⟨null,balanced⟩ := given
      refine ⟨nofun,balanced.append ?_⟩
      rw [front.all (none j below _ null) rfl]
      exact settled_released _)
    ⟨fun _ => rfl,rfl⟩
  exact balanced

-- Some block skipped from iteration `first` on: every one of them detaches more than it attaches.
theorem nocache_exceeds (list : Granted pageSize driver iov) (apid first : Nat) (more : first < iters)
    (some_block : ∀ j, first ≤ j → ∀ last, (0 < j → ∃ before, last = lastPage pageSize before iov) →
      ∃ k < iov.length, Skipped pageSize last iov k) :
    ¬ DetachedOnce (xpmemLoop .receiver (fun _ => true) (fun _ => true) iters pageSize lbuf driver (fun _ => iov) iov.length apid).acts := by
  obtain ⟨_,_,_,exceeds⟩ := @loop_account (fun _ => true) (fun _ => true) pageSize lbuf iters driver iov list rfl apid
    (fun j entries s => (0 < j → ∃ before, s.lastpagebaseAddr = lastPage pageSize before iov) ∧
      (acquired entries).length + (j-first) ≤ (released entries).length) (by
      intro j entries made s t _ given front
      obtain ⟨page,exceeds⟩ := given
      refine ⟨fun _ => ⟨_,front.page rfl⟩,?_⟩
      have most := front.most
      have fewer : first ≤ j → (acquired made).length < iov.length := fun later => front.fewer (some_block j later _ page) rfl
      rw [if_pos rfl,acquired_append,acquired_append,acquired_releases,released_append,released_append,released_releases,front.keeps]
      simp only [List.length_append,List.length_nil,addresses,List.length_map,front.length]
      omega)
    ⟨nofun,by simp⟩
  intro balanced
  have equal := balanced.perm.length_eq
  omega

-- Every block attached in the first iteration, and detached in the last one.
theorem cached_balances (list : Granted pageSize driver iov) (apid : Nat) (none : ∀ k < iov.length, ¬ Skipped pageSize 0 iov k) :
    DetachedOnce (xpmemLoop .receiver (fun j => useCache && j == 0) (fun j => !useCache || j+1 == iters) iters pageSize lbuf driver
      (fun _ => iov) iov.length apid).acts := by
  obtain ⟨s,_,_,entries⟩ := @loop_account (fun j => useCache && j == 0) (fun j => !useCache || j+1 == iters) pageSize lbuf iters driver
    iov list rfl apid
    (fun j entries s => (j = 0 → s.lastpagebaseAddr = 0) ∧ entries = (if j = 0 then [] else (addresses s.attachedSeglist).map .acquire) ++
      if j = iters ∧ 0 < j then (addresses s.attachedSeglist).map .release else []) (by
      intro j entries made s t below given front
      obtain ⟨null,rfl⟩ := given
      have made_now : (if j = 0 then [] else (addresses s.attachedSeglist).map .acquire) ++ made = (addresses t.attachedSeglist).map .acquire := by
        cases j with
        | zero =>
            rw [← null rfl] at none
            exact front.all none rfl
        | succ j =>
            rw [front.idle rfl,front.kept rfl]
            exact List.append_nil _
      refine ⟨nofun,?_⟩
      rw [if_neg (show ¬ (j = iters ∧ 0 < j) by omega),List.append_nil,if_neg (Nat.succ_ne_zero j),← made_now,List.append_assoc]
      by_cases last : j+1 = iters
      · have some_iteration : iters ≠ 0 := by omega
        simp [useCache,last,some_iteration]
      · simp [useCache,last])
    ⟨fun _ => rfl,by simp⟩
  rw [DetachedOnce,entries]
  by_cases zero : iters = 0
  · simp [zero,Settled,settle]
  · rw [if_neg zero,if_pos ⟨rfl,Nat.pos_of_ne_zero zero⟩]
    exact settled_released _

-- Some block skipped in the first iteration: the last one detaches more than was attached.
theorem cached_exceeds (list : Granted pageSize driver iov) (apid : Nat) (some_iteration : 0 < iters)
    (some_block : ∃ k < iov.length, Skipped pageSize 0 iov k) :
    ¬ DetachedOnce (xpmemLoop .receiver (fun j => useCache && j == 0) (fun j => !useCache || j+1 == iters) iters pageSize lbuf driver
      (fun _ => iov) iov.length apid).acts := by
  obtain ⟨_,_,_,fewer,detached⟩ := @loop_account (fun j => useCache && j == 0) (fun j => !useCache || j+1 == iters) pageSize lbuf iters
    driver iov list rfl apid
    (fun j entries s => (j = 0 → s.lastpagebaseAddr = 0 ∧ entries = []) ∧ (acquired entries).length < iov.length ∧
      (j = iters → 0 < j → iov.length ≤ (released entries).length)) (by
      intro j entries made s t _ given front
      obtain ⟨start,fewer,_⟩ := given
      have fewer_now : (acquired entries).length + (acquired made).length < iov.length := by
        cases j with
        | zero =>
            obtain ⟨null,rfl⟩ := start rfl
            rw [← null] at some_block
            have less := front.fewer some_block rfl
            simpa using less
        | succ j =>
            rw [front.idle rfl]
            exact fewer
      refine ⟨nofun,?_,fun last _ => ?_⟩
      · rw [acquired_append,acquired_append]
        split <;> simpa using fewer_now
      · have detaches : (!useCache || j+1 == iters) = true := by simp [last]
        rw [detaches,if_pos rfl,released_append,released_append,released_releases]
        simp only [List.length_append,addresses,List.length_map,front.length]
        omega)
    ⟨fun _ => ⟨rfl,rfl⟩,by
      obtain ⟨k,inside,_⟩ := some_block
      exact Nat.lt_of_le_of_lt (Nat.zero_le k) inside,nofun⟩
  intro balanced
  have equal := balanced.perm.length_eq
  have all := detached rfl some_iteration
  omega

end

section
variable {pageSize base nblocks blocksize : Nat} {driver : XpmemDriver}

structure Buffer (pageSize base nblocks blocksize : Nat) : Prop where
  power : ∃ k < 63, pageSize = 2 ^ k
  aligned : pageSize ∣ base
  nonnull : 0 < base
  bytes : 0 < blocksize
  fits : base + nblocks * blocksize ≤ sizeMod

theorem Buffer.page (buffer : Buffer pageSize base nblocks blocksize) (inside : i < nblocks) :
    pageBase pageSize (base + i * blocksize) = base + i * blocksize / pageSize * pageSize :=
  page_at buffer.power buffer.aligned buffer.bytes buffer.fits inside

theorem Buffer.block (buffer : Buffer pageSize base nblocks blocksize) (known : (initIov base nblocks blocksize)[i]? = some v) :
    i < nblocks ∧ v = ⟨base + i * blocksize,blocksize⟩ := known_block buffer.bytes buffer.fits known

theorem Buffer.granted (buffer : Buffer pageSize base nblocks blocksize)
    (granted : ∀ j i offset size, (driver.attach j i offset size).isSome) :
    Granted pageSize driver (initIov base nblocks blocksize) := by
  refine ⟨?_,fun j i v _ => granted j i _ _⟩
  intro v member _
  obtain ⟨i,known⟩ := List.mem_iff_getElem?.mp member
  obtain ⟨inside,rfl⟩ := buffer.block known
  have nonnull := buffer.nonnull
  change pageBase pageSize (base + i * blocksize) ≠ 0
  rw [buffer.page inside]
  omega

theorem large_asked (buffer : Buffer pageSize base nblocks blocksize) (large : pageSize ≤ blocksize) (last k : Nat) :
    ¬ Skipped pageSize last (initIov base nblocks blocksize) k := by
  rintro ⟨v,known,silent⟩
  obtain ⟨_,rfl⟩ := buffer.block known
  exact silent fun small => absurd small (Nat.not_lt.mpr large)

theorem single_asked (buffer : Buffer pageSize base 1 blocksize) (inside : k < 1) :
    ¬ Skipped pageSize 0 (initIov base 1 blocksize) k := by
  rintro ⟨v,known,silent⟩
  obtain ⟨_,rfl⟩ := buffer.block known
  obtain rfl : k = 0 := by omega
  apply silent
  intro _
  have nonnull := buffer.nonnull
  change 0 ≠ pageBase pageSize (base + 0 * blocksize)
  rw [buffer.page inside]
  omega

-- Behind block 0, a smaller one, the first page is remembered.
theorem first_remembered (buffer : Buffer pageSize base nblocks blocksize) (small : blocksize < pageSize) (some_blocks : 0 < nblocks)
    (last : Nat) : lastPage pageSize last ((initIov base nblocks blocksize).take 1) = base := by
  have front : (initIov base nblocks blocksize).take 1 = [⟨base + 0 * blocksize,blocksize⟩] := by
    rw [take_succ_of (block_known buffer.bytes buffer.fits some_blocks)]
    rfl
  rw [front]
  change nextPage pageSize last ⟨base + 0 * blocksize,blocksize⟩ = base
  rw [nextPage,if_pos small,buffer.page some_blocks]
  simp

theorem second_skipped (buffer : Buffer pageSize base nblocks blocksize) (small : blocksize < pageSize) (second : 1 < nblocks)
    (last : Nat) : ∃ k < nblocks, Skipped pageSize last (initIov base nblocks blocksize) k := by
  refine ⟨1,second,_,block_known buffer.bytes buffer.fits second,fun asks => asks small ?_⟩
  rw [first_remembered buffer small (by omega),buffer.page second,Nat.one_mul,Nat.div_eq_of_lt small]
  simp

theorem single_skipped (buffer : Buffer pageSize base 1 blocksize) (small : blocksize < pageSize) (before : Nat) :
    ∃ k < 1, Skipped pageSize (lastPage pageSize before (initIov base 1 blocksize)) (initIov base 1 blocksize) k := by
  have remembered := first_remembered buffer small Nat.one_pos before
  rw [List.take_of_length_le (Nat.le_of_eq initIov_length)] at remembered
  refine ⟨0,Nat.one_pos,_,block_known buffer.bytes buffer.fits Nat.one_pos,fun asks => asks small ?_⟩
  rw [remembered,buffer.page Nat.one_pos]
  simp [lastPage]

end

section
variable {pageSize base nblocks blocksize lbuf : Nat} {driver : XpmemDriver}

theorem nocache_iff (buffer : Buffer pageSize base nblocks blocksize) (some_blocks : 0 < nblocks)
    (granted : ∀ j i offset size, (driver.attach j i offset size).isSome) (iters apid : Nat) :
    DetachedOnce (xpmemLoop .receiver (fun _ => true) (fun _ => true) iters pageSize lbuf driver
      (fun _ => initIov base nblocks blocksize) nblocks apid).acts ↔
    iters = 0 ∨ pageSize ≤ blocksize ∨ (nblocks = 1 ∧ iters = 1) := by
  have list := buffer.granted granted
  have balances := @nocache_balances pageSize lbuf iters driver _ list apid
  have exceeds := @nocache_exceeds pageSize lbuf iters driver _ list apid
  rw [initIov_length] at balances exceeds
  constructor
  · intro balanced
    apply Classical.byContradiction
    intro bad
    simp only [not_or,not_and,Nat.not_le] at bad
    obtain ⟨some_iteration,small,several⟩ := bad
    by_cases single : nblocks = 1
    · subst single
      have again := several rfl
      refine exceeds 1 (by omega) (fun j later last page => ?_) balanced
      obtain ⟨before,rfl⟩ := page later
      exact single_skipped buffer small before
    · exact exceeds 0 (by omega) (fun j _ last _ => second_skipped buffer small (by omega) last) balanced
  · intro good
    apply balances
    intro j below last null k inside
    rcases good with zero | large | ⟨rfl,rfl⟩
    · omega
    · exact large_asked buffer large last k
    · rw [null (by omega)]
      exact single_asked buffer inside

theorem cached_iff (buffer : Buffer pageSize base nblocks blocksize) (some_blocks : 0 < nblocks)
    (granted : ∀ j i offset size, (driver.attach j i offset size).isSome) (iters apid : Nat) :
    DetachedOnce (xpmemLoop .receiver (fun j => useCache && j == 0) (fun j => !useCache || j+1 == iters) iters pageSize lbuf driver
      (fun _ => initIov base nblocks blocksize) nblocks apid).acts ↔
    iters = 0 ∨ pageSize ≤ blocksize ∨ nblocks = 1 := by
  have list := buffer.granted granted
  have balances := @cached_balances pageSize lbuf iters driver _ list apid
  have exceeds := @cached_exceeds pageSize lbuf iters driver _ list apid
  rw [initIov_length] at balances exceeds
  constructor
  · intro balanced
    apply Classical.byContradiction
    intro bad
    simp only [not_or,Nat.not_le] at bad
    obtain ⟨some_iteration,small,several⟩ := bad
    exact exceeds (by omega) (second_skipped buffer small (by omega) 0) balanced
  · intro good
    rcases good with rfl | large | rfl
    · rfl
    · exact balances fun k _ => large_asked buffer large 0 k
    · exact balances fun k inside => single_asked buffer inside

end

theorem attachments_release (apid : Nat) : attachments ((release apid).map Prod.snd) = [] := by
  unfold release
  split <;> rfl

-- What surrounds the loop neither attaches nor detaches.
theorem benchmark_balance (version : 0 ≤ driver.version) (ended : (xpmemLoop role attachNow detachNow iters pageSize lbuf driver iov
      (toInt (bufsize / blocksize)) apid).out = .ok s) :
    DetachedOnce (benchmarkXpmem role attachNow detachNow iters pageSize lbuf driver iov bufsize blocksize apid).acts ↔
      DetachedOnce (xpmemLoop role attachNow detachNow iters pageSize lbuf driver iov (toInt (bufsize / blocksize)) apid).acts := by
  have rest : attachments (((none,Act.barrier) :: release s.apid).map Prod.snd) = [] := attachments_release s.apid
  rw [benchmark_ended version ended,DetachedOnce,DetachedOnce,List.map_cons,List.map_cons,List.map_append]
  change Settled (attachments (_ ++ _)) ↔ _
  rw [attachments_append,rest,List.append_nil]

theorem dt_balance (ended : (xpmemLoop role (fun _ => true) (fun _ => true) iters pageSize lbuf driver iov
      ((bufsize / blocksize : Nat) : Int) apid).out = .ok s) :
    DetachedOnce (xpmemDt role iters pageSize lbuf driver iov bufsize blocksize apid).acts ↔
      DetachedOnce (xpmemLoop role (fun _ => true) (fun _ => true) iters pageSize lbuf driver iov
        ((bufsize / blocksize : Nat) : Int) apid).acts := by
  have rest : attachments ((release s.apid ++ [(none,Act.free lbuf),(none,Act.barrier)]).map Prod.snd) = [] := by
    rw [List.map_append,attachments_append,attachments_release]
    rfl
  rw [DetachedOnce,DetachedOnce,dt_ended ended,List.map_cons,List.map_cons,List.map_cons,List.map_append]
  change Settled (attachments (_ ++ _)) ↔ _
  rw [attachments_append,rest,List.append_nil]

-- The receivers of bench.c and of xpmem_dt.c, with every attach call succeeding and an int
-- that holds the number of blocks.
theorem attachments_balance {pageSize base bufsize blocksize : Nat} (power : ∃ k < 63, pageSize = 2 ^ k) (aligned : pageSize ∣ base)
    (nonnull : 0 < base) (fits : base + bufsize ≤ sizeMod) (bytes : 0 < blocksize) (filled : 0 < bufsize) (divides : blocksize ∣ bufsize)
    (ints : bufsize / blocksize ≤ intMax) {driver : XpmemDriver} (granted : ∀ j i offset size, (driver.attach j i offset size).isSome)
    (iters recvBuf apid : Nat) :
    (DetachedOnce (benchmarkXpmemNocache .receiver iters pageSize recvBuf driver (fun _ => initIov base (bufsize / blocksize) blocksize)
      bufsize blocksize apid).acts ↔ driver.version < 0 ∨ iters = 0 ∨ pageSize ≤ blocksize ∨ (bufsize = blocksize ∧ iters = 1)) ∧
    (DetachedOnce (benchmarkXpmemCached .receiver iters pageSize recvBuf driver (fun _ => initIov base (bufsize / blocksize) blocksize)
      bufsize blocksize apid).acts ↔ driver.version < 0 ∨ iters = 0 ∨ pageSize ≤ blocksize ∨ bufsize = blocksize) ∧
    (DetachedOnce (xpmemDt .receiver iters pageSize recvBuf driver (fun _ => initIov base (bufsize / blocksize) blocksize)
      bufsize blocksize apid).acts ↔ iters = 0 ∨ pageSize ≤ blocksize ∨ (bufsize = blocksize ∧ iters = 1)) := by
  have whole := Nat.div_mul_cancel divides
  have buffer : Buffer pageSize base (bufsize / blocksize) blocksize := ⟨power,aligned,nonnull,bytes,by rw [whole]; exact fits⟩
  have some_blocks : 0 < bufsize / blocksize := Nat.div_pos (Nat.le_of_dvd filled divides) bytes
  have single : bufsize / blocksize = 1 ↔ bufsize = blocksize := by
    constructor
    · intro one
      rw [one,Nat.one_mul] at whole
      exact whole.symm
    · rintro rfl
      exact Nat.div_self bytes
  have narrow : toInt (bufsize / blocksize) = ((bufsize / blocksize : Nat) : Int) := toInt_exact ints
  have ends : ∀ attachNow detachNow : Nat → Bool, attachNow 0 = true → ∃ s, (xpmemLoop .receiver attachNow detachNow iters pageSize recvBuf
      driver (fun _ => initIov base (bufsize / blocksize) blocksize) ((bufsize / blocksize : Nat) : Int) apid).out = .ok s := by
    intro attachNow detachNow attaches
    obtain ⟨s,ended,_⟩ := @loop_account attachNow detachNow pageSize recvBuf iters driver _ (buffer.granted granted) attaches apid
      (fun _ _ _ => True) (fun _ _ _ _ _ _ _ _ => trivial) trivial
    rw [initIov_length] at ended
    exact ⟨s,ended⟩
  have nocache := @nocache_iff pageSize base _ blocksize recvBuf driver buffer some_blocks granted iters apid
  have cached := @cached_iff pageSize base _ blocksize recvBuf driver buffer some_blocks granted iters apid
  rw [single] at nocache cached
  obtain ⟨_,ended⟩ := ends (fun _ => true) (fun _ => true) rfl
  refine ⟨?_,?_,(dt_balance ended).trans nocache⟩
  · by_cases version : driver.version < 0
    · simp [benchmarkXpmemNocache,benchmarkXpmem,version,DetachedOnce,attachments,Settled,settle]
    · rw [← narrow] at ended nocache
      rw [or_iff_right version]
      exact (benchmark_balance (by omega) ended).trans nocache
  · by_cases version : driver.version < 0
    · simp [benchmarkXpmemCached,benchmarkXpmem,version,DetachedOnce,attachments,Settled,settle]
    · obtain ⟨_,ended⟩ := ends (fun j => useCache && j == 0) (fun j => !useCache || j+1 == iters) rfl
      rw [← narrow] at ended cached
      rw [or_iff_right version]
      exact (benchmark_balance (by omega) ended).trans cached

theorem attachments_balance_whole_pages : DetachedOnce (benchmarkXpmemNocache .receiver 110 4096 65536
    ⟨1,fun _ => 7,fun _ _ offset _ => some (1048576 + offset)⟩ (fun _ => initIov 16384 (16384 / 8192) 8192) 16384 8192 0).acts :=
  (@attachments_balance 4096 16384 16384 8192 ⟨12,by decide,rfl⟩ (by decide) (by decide) (by decide) (by decide) (by decide) (by decide)
    (by decide) ⟨1,fun _ => 7,fun _ _ offset _ => some (1048576 + offset)⟩ (fun _ _ _ _ => rfl) 110 65536 0).1.mpr (.inr (.inr (.inl (by decide))))

-- Two blocks of half a page: the page is attached once and detached twice.
theorem attachments_unbalanced :
    ¬ DetachedOnce (benchmarkXpmemNocache .receiver 1 4096 65536 ⟨1,fun _ => 7,fun _ _ offset _ => some (1048576 + offset)⟩
      (fun _ => initIov 16384 2 2048) 4096 2048 0).acts ∧
    ¬ DetachedOnce (benchmarkXpmemCached .receiver 1 4096 65536 ⟨1,fun _ => 7,fun _ _ offset _ => some (1048576 + offset)⟩
      (fun _ => initIov 16384 2 2048) 4096 2048 0).acts := by
  unfold DetachedOnce Settled
  decide +kernel

end MpidtBench.XpmemBalance
