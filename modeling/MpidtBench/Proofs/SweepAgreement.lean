import MpidtBench.Proofs.SweepRuns
import MpidtBench.Proofs.SweepSafety

namespace MpidtBench.SweepAgreement
open Traced CInteger ScatterGather ByteMemory MpidtBench CmaBatches XpmemLoops XpmemMapped XpmemBounds XpmemLive Delivery SweepTrace
  SweepSafety SweepRuns

structure Admitted (pageSize limit bufsize blocksize : Nat) : Prop where
  divides : blocksize ∣ bufsize
  pages : blocksize ∣ pageSize ∨ pageSize ∣ blocksize
  batches : bufsize / blocksize ≤ limit ∨ limit ∣ bufsize / blocksize
  lists : bufsize / blocksize * 16 ≤ intMax

structure Sizes (pageSize limit full bufsize minBs maxBs : Nat) : Prop where
  power : ∃ k, pageSize = 2 ^ k
  limited : 0 < limit
  chunks : full ∣ bufsize
  pages : pageSize < bufsize
  small : bufsize ≤ intMax
  first : 0 < minBs
  ordered : minBs ≤ maxBs
  last : maxBs ≤ bufsize
  steps : ∀ q, minBs * 2 ^ q ≤ maxBs → Admitted pageSize limit bufsize (minBs * 2 ^ q)

-- What reaches a receiver in step `q`: whole batches, and in place of what stood in a list
-- the one that the sender holds at that call.
structure Delivers (iters bufsize blocksize q : Nat) (root own : Machine) : Prop where
  transfers : ∀ j, FullTransfers (bufsize / blocksize) blocksize (own.readv q j)
  received : ∀ bench, ∃ list : List IoVec, list.length = bufsize / blocksize ∧
    own.received q bench = delivered (iovecBytes (toInt (bufsize / blocksize)))
      (iovBefore .sender iters root q (initIov root.lbuf (bufsize / blocksize) blocksize) bench) list

-- What the system gives a rank: a page-aligned buffer, mappings apart from it, and calls
-- that succeed in full. `root` is the sender's machine.
structure Host (role : Role) (pageSize limit iters bufsize minBs maxBs : Nat) (root own : Machine) : Prop where
  page : own.pageSize = pageSize
  batch : own.limit = limit
  aligned : pageSize ∣ own.lbuf
  nonnull : 0 < own.lbuf
  fits : own.lbuf + bufsize ≤ sizeMod
  apart : ∀ q, Apart own.lbuf (own.shmemPtr q) bufsize
  attaches : role = .receiver → ∀ q bench j i offset size, pageSize ∣ offset → ((own.driver q bench).attach j i offset size).isSome
  steps : role = .receiver → ∀ q, minBs * 2 ^ q ≤ maxBs → Delivers iters bufsize (minBs * 2 ^ q) q root own

def placeOf (role : Role) (root own : Machine) (bufsize blocksize q : Nat) : Place :=
  ⟨role,own.pageSize,own.lbuf,own.shmemPtr q,root.lbuf,bufsize,bufsize / blocksize⟩

-- Without a driver the XPMEM benchmarks return at once.
def Reaches (machine : Machine) (q : Nat) : Bench → Prop
  | .xpmemNocache => 0 ≤ (machine.driver q .xpmemNocache).version
  | .xpmemCached => 0 ≤ (machine.driver q .xpmemCached).version
  | _ => True

section
variable {role : Role} {pageSize limit full iters bufsize minBs maxBs blocksize q : Nat} {root own : Machine}

theorem sender_list (iters : Nat) (root : Machine) (q : Nat) (liov : List IoVec) (bench : Bench) :
    iovBefore .sender iters root q liov bench = liov := by
  cases bench <;> rfl

theorem delivered_whole {list : List IoVec} (lists : nblocks * 16 ≤ intMax) (length : list.length = nblocks) :
    delivered (iovecBytes nblocks) (initIov base nblocks blocksize) list = initIov base nblocks blocksize := by
  rw [delivered,iovecBytes_exact lists,Int.toNat_natCast,Nat.mul_div_cancel _ (by decide),
    List.take_of_length_le (Nat.le_of_eq initIov_length),List.drop_of_length_le (Nat.le_of_eq length),List.append_nil]

theorem step_layout (sizes : Sizes pageSize limit full bufsize minBs maxBs) (host : Host role pageSize limit iters bufsize minBs maxBs root own)
    (below : minBs * 2 ^ q ≤ maxBs) : Layout pageSize own.lbuf (bufsize / (minBs * 2 ^ q)) (minBs * 2 ^ q) := by
  have whole := Nat.div_mul_cancel (sizes.steps q below).divides
  obtain ⟨k,rfl⟩ := sizes.power
  have exponent : k < 63 := by
    apply Nat.lt_of_not_le
    intro large
    have power := Nat.pow_le_pow_right (n := 2) (by decide) large
    have pages := sizes.pages
    have small := sizes.small
    simp only [intMax] at small
    omega
  refine ⟨⟨k,exponent,rfl⟩,host.aligned,host.nonnull,Nat.mul_pos sizes.first (Nat.two_pow_pos q),?_,?_⟩
  · rw [whole]; exact sizes.small
  · rw [whole]; exact host.fits

theorem step_fit (sizes : Sizes pageSize limit full bufsize minBs maxBs) (sends : Host .sender pageSize limit iters bufsize minBs maxBs root root)
    (host : Host role pageSize limit iters bufsize minBs maxBs root own) (below : minBs * 2 ^ q ≤ maxBs) :
    Fit (placeOf role root own bufsize (minBs * 2 ^ q) q) (bufsize / (minBs * 2 ^ q)) (minBs * 2 ^ q) := by
  have admitted := sizes.steps q below
  have page := host.page
  refine ⟨(Nat.div_mul_cancel admitted.divides).symm,rfl,admitted.lists,?_,?_,host.apart q⟩
  · rw [placeOf,page]
    exact step_layout sizes host below
  · rw [placeOf,page]
    exact step_layout sizes sends below

-- What the Bcasts leave on a receiver is the sender's list.
theorem step_received (sizes : Sizes pageSize limit full bufsize minBs maxBs) (receives : role = .receiver)
    (host : Host role pageSize limit iters bufsize minBs maxBs root own) (below : minBs * 2 ^ q ≤ maxBs) (bench : Bench) :
    own.received q bench = initIov root.lbuf (bufsize / (minBs * 2 ^ q)) (minBs * 2 ^ q) := by
  obtain ⟨list,length,received⟩ := (host.steps receives q below).received bench
  rw [received,sender_list,nblocks_exact _ _ sizes.small]
  exact delivered_whole (sizes.steps q below).lists length

-- A benchmark of at least a page a block, or of a buffer that reaches past the first page.
theorem nocache_reads (sizes : Sizes pageSize limit full bufsize minBs maxBs) (below : minBs * 2 ^ q ≤ maxBs) :
    ¬ minBs * 2 ^ q < pageSize ∨ pageSize ≤ (bufsize / (minBs * 2 ^ q) - 1) * (minBs * 2 ^ q) := by
  have whole := Nat.div_mul_cancel (sizes.steps q below).divides
  have pages := sizes.pages
  apply Decidable.or_iff_not_imp_left.mpr
  intro small
  rcases (sizes.steps q below).pages with divides | multiple
  · generalize minBs * 2 ^ q = blocksize at *
    generalize bufsize / blocksize = nblocks at whole ⊢
    obtain ⟨count,rfl⟩ := divides
    rw [← whole,Nat.mul_comm blocksize count] at pages
    have fewer := Nat.lt_of_mul_lt_mul_right pages
    rw [Nat.mul_comm blocksize count]
    exact Nat.mul_le_mul_right _ (by omega)
  · have positive : 0 < minBs * 2 ^ q := Nat.mul_pos sizes.first (Nat.two_pow_pos q)
    have order := Nat.le_of_dvd positive multiple
    omega

theorem step_blocks (sizes : Sizes pageSize limit full bufsize minBs maxBs) (below : minBs * 2 ^ q ≤ maxBs) :
    0 < bufsize / (minBs * 2 ^ q) := by
  apply Nat.pos_of_ne_zero
  intro none
  have whole := Nat.div_mul_cancel (sizes.steps q below).divides
  have pages := sizes.pages
  rw [none,Nat.zero_mul] at whole
  omega

theorem Sizes.room (sizes : Sizes pageSize limit full bufsize minBs maxBs) : 0 < full ∧ full < sizeMod := by
  have filled : 0 < bufsize := Nat.lt_of_le_of_lt (Nat.zero_le _) sizes.pages
  exact ⟨Nat.pos_of_dvd_of_pos sizes.chunks filled,
    intMax_lt_sizeMod (Nat.le_trans (Nat.le_of_dvd filled sizes.chunks) sizes.small)⟩

theorem step_fits (sizes : Sizes pageSize limit full bufsize minBs maxBs) (host : Host role pageSize limit iters bufsize minBs maxBs root own)
    (below : minBs * 2 ^ q ≤ maxBs) : Fits own.pageSize (bufsize / (minBs * 2 ^ q) * (minBs * 2 ^ q)) (minBs * 2 ^ q) := by
  rw [host.page]
  rcases (sizes.steps q below).pages with divides | multiple
  · exact .inl divides
  · exact .inr (.inl multiple)

-- A receiver can attach what every block of the sender's list asks for.
theorem step_attachable (sizes : Sizes pageSize limit full bufsize minBs maxBs)
    (sends : Host .sender pageSize limit iters bufsize minBs maxBs root root)
    (host : Host role pageSize limit iters bufsize minBs maxBs root own) (below : minBs * 2 ^ q ≤ maxBs) (receives : role = .receiver)
    (bench : Bench) : Attachable own.pageSize (own.driver q bench)
      (initIov root.lbuf (bufsize / (minBs * 2 ^ q)) (minBs * 2 ^ q)) := by
  have fit := step_fit sizes sends host below
  have granted := host.attaches receives q bench
  rw [← host.page] at granted
  exact attachable fit.sent (fits_requests fit.sent (step_fits sizes host below)) granted

theorem called_carried (sizes : Sizes pageSize limit full bufsize minBs maxBs)
    (sends : Host .sender pageSize limit iters bufsize minBs maxBs root root)
    (host : Host role pageSize limit iters bufsize minBs maxBs root own) (below : minBs * 2 ^ q ≤ maxBs) (bench : Bench)
    (reaches : Reaches own q bench) :
    Carried (placeOf role root own bufsize (minBs * 2 ^ q) q) iters (viaRegion bench)
      (called role iters full bufsize own (q,minBs * 2 ^ q) bench) := by
  have fit := step_fit sizes sends host below
  have fits := step_fits sizes host below
  have blocks := step_blocks sizes below
  have received := fun bench receives => step_received sizes receives host below bench
  have granted : ∀ bench, role = .receiver → ∀ j i offset size, own.pageSize ∣ offset →
      ((own.driver q bench).attach j i offset size).isSome := by
    rw [host.page]
    exact fun bench receives => host.attaches receives q bench
  cases bench with
  | shmem => exact shmem_carried fit
  | shmemPip => exact pip_carried fit sizes.room.1 sizes.room.2 sizes.chunks
  | cma =>
      have run := @cma_carried (placeOf role root own bufsize (minBs * 2 ^ q) q) _ _ iters fit blocks limit sizes.limited
        (sizes.steps q below).batches (own.readv q) (own.received q .cma) (received .cma)
        (fun receives => (host.steps receives q below).transfers)
      rw [← host.batch] at run
      exact run
  | xpmemNocache =>
      refine xpmem_carried fit reaches rfl fits (granted .xpmemNocache) (received .xpmemNocache) fun receives live => ?_
      have lists := step_attachable sizes sends host below receives .xpmemNocache
      have reads : ¬ minBs * 2 ^ q < own.pageSize ∨
          own.pageSize ≤ (bufsize / (minBs * 2 ^ q) - 1) * (minBs * 2 ^ q) := by
        rw [host.page]
        exact nocache_reads sizes below
      exact loop_live fit.sent blocks lists iters _ (.inr reads)
  | xpmemCached =>
      refine xpmem_carried fit reaches rfl fits (granted .xpmemCached) (received .xpmemCached) fun receives live => ?_
      exact cached_live fit.sent (step_attachable sizes sends host below receives .xpmemCached) iters _

theorem called_nothing (stuck : ¬ Reaches own q bench) : called role iters full bufsize own (q,blocksize) bench = pure () := by
  cases bench with
  | xpmemNocache => exact if_pos (Int.not_le.mp stuck)
  | xpmemCached => exact if_pos (Int.not_le.mp stuck)
  | _ => exact absurd trivial stuck

theorem carried_inside {place : Place} {region : Bool} {run : Run Fault Stamped Unit} (carried : Carried place iters region run)
    {event : Stamped} (member : event ∈ run.acts) : InBounds place event.2 := by
  obtain ⟨blocks,opening,closing,acts,framed,serves⟩ := carried.rounds
  rw [acts] at member
  rcases List.mem_append.mp member with front | later
  · exact (framed.outside event (List.mem_append_left _ front)).2.1
  · rcases List.mem_append.mp later with round | back
    · obtain ⟨j,inside,_,issued⟩ := stampBlocks_mem round
      exact (serves j inside).inside _ issued
    · exact (framed.outside event (List.mem_append_right _ back)).2.1

theorem called_sound (sizes : Sizes pageSize limit full bufsize minBs maxBs)
    (sends : Host .sender pageSize limit iters bufsize minBs maxBs root root)
    (host : Host role pageSize limit iters bufsize minBs maxBs root own) (below : minBs * 2 ^ q ≤ maxBs) (bench : Bench) :
    (called role iters full bufsize own (q,minBs * 2 ^ q) bench).out = .ok () ∧
      (∀ event ∈ (called role iters full bufsize own (q,minBs * 2 ^ q) bench).acts,
        InBounds (placeOf role root own bufsize (minBs * 2 ^ q) q) event.2) ∧
      ∀ live, CopiesLive live ((called role iters full bufsize own (q,minBs * 2 ^ q) bench).acts.map Prod.snd) := by
  by_cases reaches : Reaches own q bench
  · have carried := called_carried sizes sends host below bench reaches
    exact ⟨carried.ended,fun _ => carried_inside carried,carried.live⟩
  · rw [called_nothing reaches]
    exact ⟨rfl,nofun,fun _ => trivial⟩

-- A rank's whole run of main: no assert fails, no index leaves a list, every access is
-- inside its object and goes through an attachment only while it is one.
structure Sound (role : Role) (iters full bufsize minBs maxBs : Nat) (root own : Machine) : Prop where
  ended : (mainProgram role iters full own bufsize minBs maxBs).out = .ok ()
  inside : ∀ q bench event, (some (q,bench),event) ∈ (mainProgram role iters full own bufsize minBs maxBs).acts →
    InBounds (placeOf role root own bufsize (minBs * 2 ^ q) q) event.2
  live : CopiesLive [] ((mainProgram role iters full own bufsize minBs maxBs).acts.map fun event => event.2.2)

theorem copiesLive_flatMap {list : List τ} {f : τ → List Act} (each : ∀ x ∈ list, ∀ live, CopiesLive live (f x)) (live : List Nat) :
    CopiesLive live (list.flatMap f) := by
  induction list generalizing live with
  | nil => trivial
  | cons x rest ih =>
      rw [List.flatMap_cons,copiesLive_append]
      exact ⟨each x (by simp) live,ih (fun y member => each y (List.mem_cons_of_mem _ member)) _⟩

theorem Sizes.visits (sizes : Sizes pageSize limit full bufsize minBs maxBs) (step : Nat × Nat) :
    step ∈ visited maxBs sweepFuel (0,minBs) ↔ ∃ q, step = (q,minBs * 2 ^ q) ∧ minBs * 2 ^ q ≤ maxBs :=
  visited_iff (Nat.le_trans sizes.last sizes.small) sizes.first step

theorem main_sound (sizes : Sizes pageSize limit full bufsize minBs maxBs)
    (sends : Host .sender pageSize limit iters bufsize minBs maxBs root root)
    (host : Host role pageSize limit iters bufsize minBs maxBs root own) : Sound role iters full bufsize minBs maxBs root own := by
  have each := fun q (below : minBs * 2 ^ q ≤ maxBs) bench => called_sound sizes sends host below bench
  have ended : (mainProgram role iters full own bufsize minBs maxBs).out = .ok () :=
    main_ends (Nat.lt_of_le_of_lt (Nat.zero_le _) sizes.pages) sizes.first sizes.ordered sizes.last sizes.small
      fun q below bench => (each q below bench).1
  have acts := (main_parts ended).1
  refine ⟨ended,?_,?_⟩
  · intro q bench event member
    rcases main_mem ended member with barrier | free | ⟨step,visit,other,act,made,same⟩
    · cases barrier
    · cases free
    · obtain ⟨k,rfl,below⟩ := (sizes.visits step).mp visit
      cases same
      exact (each _ below _).2.1 _ made
  · have turns : ∀ step ∈ visited maxBs sweepFuel (0,minBs), ∀ bench, ∀ live,
        CopiesLive live ((turn role iters full bufsize own step bench).map fun event => event.2.2) := by
      intro step visit bench live
      obtain ⟨k,rfl,below⟩ := (sizes.visits step).mp visit
      rw [turn,List.map_append,List.map_map,copiesLive_append]
      exact ⟨(each k below bench).2.2 live,trivial,trivial⟩
    have last : ∀ live, CopiesLive live ((freed own).map fun event => event.2.2) := by
      intro live
      unfold freed
      split
      · exact ⟨trivial,trivial⟩
      · trivial
    rw [acts,List.map_cons,List.map_append,List.map_flatMap]
    refine ⟨trivial,(copiesLive_append _ _ _).mpr ⟨copiesLive_flatMap (fun step visit live => ?_) _,last _⟩⟩
    rw [List.map_flatMap]
    exact copiesLive_flatMap (fun bench _ live => turns step visit bench live) live

-- No attach fails in such a run, so that it is one that main's protocol is safe for.
theorem sound_completes (sound : Sound role iters full bufsize minBs maxBs root own) : Completes role iters full own bufsize minBs maxBs := by
  refine ⟨sound.ended,?_⟩
  intro event member
  rcases main_mem sound.ended member with rfl | rfl | ⟨step,_,bench,act,_,rfl⟩
  · rfl
  · rfl
  · have inside := sound.inside _ _ _ member
    obtain ⟨stamp,act⟩ := act
    cases act with
    | xpmemAttach offset size result =>
        obtain ⟨_,vaddr,rfl⟩ := inside
        rfl
    | _ => rfl

def stamped (stamp : Option Nat) (acts : List Stamped) : List Act :=
  acts.filterMap fun event => if event.1 = stamp then some event.2 else none

theorem stamped_blocks {blocks : Nat → List Act} (inside : j < iters) :
    stamped (some j) (stampBlocks iters blocks) = blocks j ∧ stamped none (stampBlocks iters blocks) = [] := by
  constructor
  · exact carrying_blocks (fun _ _ same => Option.some.inj same) List.nodup_range (List.mem_range.mpr inside) blocks
  · rw [stampBlocks,stamped,List.filterMap_flatMap]
    exact List.flatMap_eq_nil_iff.mpr fun i _ => (carrying_block (blocks i) (some i) none).trans (if_neg (Option.some_ne_none i))

theorem stamped_outside {acts : List Stamped} (outside : ∀ event ∈ acts, event.1 = none) :
    stamped (some j) acts = [] ∧ stamped none acts = acts.map Prod.snd := by
  induction acts with
  | nil => exact ⟨rfl,rfl⟩
  | cons event rest ih =>
      obtain ⟨stamp,act⟩ := event
      obtain rfl : stamp = none := outside (stamp,act) (by simp)
      obtain ⟨none_of,all_of⟩ := ih fun other member => outside other (List.mem_cons_of_mem _ member)
      unfold stamped at none_of all_of ⊢
      exact ⟨by simpa using none_of,by simpa using all_of⟩

theorem stamped_append (stamp : Option Nat) (first second : List Stamped) :
    stamped stamp (first ++ second) = stamped stamp first ++ stamped stamp second := List.filterMap_append

theorem carried_iteration {place : Place} {region : Bool} {run : Run Fault Stamped Unit} (carried : Carried place iters region run)
    (inside : j < iters) : Serves place region (stamped (some j) run.acts) ∧
      ∀ peer m, effects peer (stamped none run.acts) m = fill m place.lbuf (initByte place.role) place.bufsize := by
  obtain ⟨blocks,opening,closing,acts,framed,serves⟩ := carried.rounds
  obtain ⟨round,no_round⟩ := @stamped_blocks iters j blocks inside
  obtain ⟨no_front,front⟩ := @stamped_outside j opening fun event member => (framed.outside event (List.mem_append_left _ member)).1
  obtain ⟨no_back,back⟩ := @stamped_outside j closing fun event member => (framed.outside event (List.mem_append_right _ member)).1
  rw [acts]
  simp only [stamped_append,round,no_round,no_front,front,no_back,back,List.nil_append,List.append_nil]
  exact ⟨serves j inside,by rw [← List.map_append]; exact framed.fills⟩

theorem during_append (bench : Bench) (stamp : Option Nat) (first second : List Event) :
    during q bench stamp (first ++ second) = during q bench stamp first ++ during q bench stamp second := List.filterMap_append

theorem during_flatMap (bench : Bench) (stamp : Option Nat) (list : List τ) (f : τ → List Event) :
    during q bench stamp (list.flatMap f) = list.flatMap fun x => during q bench stamp (f x) := List.filterMap_flatMap

-- A turn of a step leaves actions with the tag of a call only where it makes that call.
theorem during_turn (bench : Bench) (stamp : Option Nat) (step : Nat × Nat) (other : Bench) :
    during q bench stamp (turn role iters full bufsize own step other) =
      if step.1 = q ∧ other = bench then stamped stamp (called role iters full bufsize own step other).acts else [] := by
  rw [during,turn,List.filterMap_append,List.filterMap_map]
  split
  · rename_i same
    simp [stamped,same]
  · rename_i apart
    simp [apart]

theorem during_step (bench : Bench) (stamp : Option Nat) (step : Nat × Nat) :
    during q bench stamp (order.flatMap (turn role iters full bufsize own step)) =
      if step.1 = q then stamped stamp (called role iters full bufsize own step bench).acts else [] := by
  rw [during_flatMap,flatMap_single (by decide) (show bench ∈ order by cases bench <;> decide),during_turn]
  · simp only [and_true]
  · intro other _ apart
    rw [during_turn]
    exact if_neg fun same => apart same.2

theorem during_freed (bench : Bench) (stamp : Option Nat) : during q bench stamp (freed own) = [] := by
  unfold freed
  split <;> rfl

-- Main's actions with the tag of one call are those of that call.
theorem during_main (sizes : Sizes pageSize limit full bufsize minBs maxBs)
    (ended : (mainProgram role iters full own bufsize minBs maxBs).out = .ok ()) (below : minBs * 2 ^ q ≤ maxBs) (bench : Bench)
    (stamp : Option Nat) : during q bench stamp (mainProgram role iters full own bufsize minBs maxBs).acts =
      stamped stamp (called role iters full bufsize own (q,minBs * 2 ^ q) bench).acts := by
  have visit := (sizes.visits (q,minBs * 2 ^ q)).mpr ⟨q,rfl,below⟩
  have first : during q bench stamp [(none,none,.barrier)] = [] := rfl
  rw [(main_parts ended).1,← List.singleton_append,during_append,during_append,first,during_freed,List.nil_append,
    List.append_nil,during_flatMap,flatMap_single (visited_nodup (Nat.le_trans sizes.last sizes.small) _ _) visit,during_step,if_pos rfl]
  intro step present apart
  obtain ⟨k,rfl,_⟩ := (sizes.visits step).mp present
  rw [during_step]
  refine if_neg fun same => apart ?_
  obtain rfl : k = q := same
  rfl

-- The memories of the sender and a receiver in a call, behind the memset and so many
-- iterations.
def memories (q : Nat) (bench : Bench) (bufsize : Nat) (root own : Machine) (sent got : List Event) (m : Memories) : Nat → Memories
  | 0 => exchange (root.shmemPtr q) (own.shmemPtr q) bufsize (during q bench none sent) (during q bench none got) m
  | j+1 => exchange (root.shmemPtr q) (own.shmemPtr q) bufsize (during q bench (some j) sent) (during q bench (some j) got)
      (memories q bench bufsize root own sent got m j)

def Agree (bufsize : Nat) (root own : Machine) (m : Memories) : Prop := ∀ k < bufsize,
  m.receiver (own.lbuf+k) = m.sender (root.lbuf+k) ∧ m.sender (root.lbuf+k) = initByte .sender

theorem memories_agree {region : Bool} {sent got : List Event}
    (offers : ∀ j < iters, Offers root.lbuf (root.shmemPtr q) bufsize region (during q bench (some j) sent))
    (fetches : ∀ j < iters, Fetches own.lbuf (own.shmemPtr q) root.lbuf bufsize region (during q bench (some j) got))
    (fills : ∀ peer m, effects peer (during q bench none sent) m = fill m root.lbuf (initByte .sender) bufsize) (m : Memories)
    (below : j < iters) : Agree bufsize root own (memories q bench bufsize root own sent got m (j+1)) := by
  have filled : ∀ i < iters, ∀ k < bufsize,
      (memories q bench bufsize root own sent got m i).sender (root.lbuf+k) = initByte .sender := by
    intro i
    induction i with
    | zero =>
        intro _ k inside
        rw [memories,exchange]
        simp only
        rw [fills]
        exact fill_inside _ _ inside
    | succ i ih =>
        intro low k inside
        have kept := (exchange_delivers (offers i (by omega)) (fetches i (by omega)) (memories q bench bufsize root own sent got m i)
          k inside).2
        rw [memories,kept]
        exact ih (by omega) k inside
  intro k inside
  obtain ⟨fetched,kept⟩ := exchange_delivers (offers j below) (fetches j below) (memories q bench bufsize root own sent got m j) k inside
  rw [memories]
  exact ⟨fetched,kept.trans (filled j below k inside)⟩

theorem call_agrees (sizes : Sizes pageSize limit full bufsize minBs maxBs)
    (sends : Host .sender pageSize limit iters bufsize minBs maxBs root root)
    (receives : Host .receiver pageSize limit iters bufsize minBs maxBs root own) (below : minBs * 2 ^ q ≤ maxBs) (bench : Bench)
    (sending : Reaches root q bench) (receiving : Reaches own q bench) (m : Memories) (inside : j < iters) :
    Agree bufsize root own (memories q bench bufsize root own (mainProgram .sender iters full root bufsize minBs maxBs).acts
      (mainProgram .receiver iters full own bufsize minBs maxBs).acts m (j+1)) := by
  have sent := called_carried sizes sends sends below bench sending
  have got := called_carried sizes sends receives below bench receiving
  have rootRun := (main_sound sizes sends sends).ended
  have ownRun := (main_sound sizes sends receives).ended
  refine @memories_agree iters bufsize q root own bench j (viaRegion bench) _ _ (fun i low => ?_) (fun i low => ?_) ?_ m inside
  · rw [during_main sizes rootRun below]
    exact (carried_iteration sent low).1.offers rfl
  · rw [during_main sizes ownRun below]
    exact (carried_iteration got low).1.fetches rfl
  · rw [during_main sizes rootRun below]
    exact (carried_iteration sent inside).2

end

-- On such machines the transfers are safe in every order of steps.
theorem agreeing_safe {size : Nat} (sender : Fin size) (pageSize limit full iters bufsize minBs maxBs : Nat)
    (machine : Fin size → Machine) (sizes : Sizes pageSize limit full bufsize minBs maxBs)
    (hosts : ∀ r, Host (roleOf sender r) pageSize limit iters bufsize minBs maxBs (machine sender) (machine r))
    {cfg : Collective.Config (Fin size)} (reach : (mainSystem sender iters full bufsize minBs maxBs machine).Reached cfg) :
    TransferSafe (mainSystem sender iters full bufsize minBs maxBs machine) (machine sender).lbuf bufsize cfg := by
  have sends := hosts sender
  rw [root_role] at sends
  exact reached_safe (fun r => sound_completes (main_sound sizes sends (hosts r))) sizes.small sizes.room.1 sizes.room.2 reach

-- The whole sweep, on the sender and any number of receivers: every rank gets through main,
-- and after every iteration of every benchmark a receiver's buffer is the sender's.
theorem methods_agree {size : Nat} (sender : Fin size) (pageSize limit full iters bufsize minBs maxBs : Nat)
    (machine : Fin size → Machine) (sizes : Sizes pageSize limit full bufsize minBs maxBs)
    (hosts : ∀ r, Host (roleOf sender r) pageSize limit iters bufsize minBs maxBs (machine sender) (machine r)) :
    (∀ r, Sound (roleOf sender r) iters full bufsize minBs maxBs (machine sender) (machine r)) ∧
    ∀ r ≠ sender, ∀ q, minBs * 2 ^ q ≤ maxBs → ∀ bench, Reaches (machine sender) q bench → Reaches (machine r) q bench →
      ∀ m, ∀ j < iters, Agree bufsize (machine sender) (machine r) (memories q bench bufsize (machine sender) (machine r)
        ((mainSystem sender iters full bufsize minBs maxBs machine).acts sender)
        ((mainSystem sender iters full bufsize minBs maxBs machine).acts r) m (j+1)) := by
  have sends := hosts sender
  rw [root_role] at sends
  refine ⟨fun r => main_sound sizes sends (hosts r),?_⟩
  intro r apart q below bench sending receiving m j inside
  have receives := hosts r
  rw [other_role apart] at receives
  simp only [mainSystem,root_role,other_role apart]
  exact call_agrees sizes sends receives below bench sending receiving m inside

-- Three ranks, a buffer of 32 pages, block sizes from 64 bytes to the whole buffer.
def sweepMachine (rank : Nat) : Machine where
  lbuf := 1048576 * (rank+1)
  pageSize := 4096
  limit := 1024
  shmemPtr _ := 16777216
  readv q _ _ count := count.toNat * (64 * 2 ^ q)
  received q _ := initIov 1048576 (131072 / (64 * 2 ^ q)) (64 * 2 ^ q)
  driver _ _ := ⟨1,fun _ => 7,fun _ _ offset _ => some (33554432 + offset)⟩
  apid _ _ := 0

theorem sweepMachine_sizes : Sizes 4096 1024 shmemPipelineDepth 131072 64 131072 := by
  refine ⟨⟨12,by decide⟩,by decide,by decide,by decide,by decide,by decide,by decide,by decide,fun q below => ?_⟩
  have short : q < 12 := by
    apply Nat.lt_of_not_le
    intro large
    have power := Nat.pow_le_pow_right (n := 2) (by decide) large
    omega
  have each : ∀ q < 12, 64 * 2 ^ q ∣ 131072 ∧ (64 * 2 ^ q ∣ 4096 ∨ 4096 ∣ 64 * 2 ^ q) ∧
      (131072 / (64 * 2 ^ q) ≤ 1024 ∨ 1024 ∣ 131072 / (64 * 2 ^ q)) ∧ 131072 / (64 * 2 ^ q) * 16 ≤ intMax := by decide
  obtain ⟨divides,pages,batches,lists⟩ := each q short
  exact ⟨divides,pages,batches,lists⟩

theorem sweepMachine_host (role : Role) (iters : Nat) {rank : Nat} (few : rank < 3) :
    Host role 4096 1024 iters 131072 64 131072 (sweepMachine 0) (sweepMachine rank) := by
  refine ⟨rfl,rfl,?_,?_,?_,fun _ => .inl ?_,fun _ _ _ _ _ _ _ _ => rfl,fun _ q below => ⟨fun _ _ _ _ => rfl,fun bench => ?_⟩⟩
  · exact Nat.dvd_mul_right_of_dvd (by decide) _
  · exact Nat.mul_pos (by decide) (Nat.succ_pos rank)
  · simp only [sweepMachine,sizeMod]; omega
  · simp only [sweepMachine]; omega
  · have lists := (sweepMachine_sizes.steps q below).lists
    refine ⟨initIov 1048576 (131072 / (64 * 2 ^ q)) (64 * 2 ^ q),initIov_length,?_⟩
    rw [sender_list,nblocks_exact _ _ (by decide)]
    exact (delivered_whole lists initIov_length).symm

theorem methods_agree_three_ranks :
    (∀ r : Fin 3, Sound (roleOf 0 r) 110 shmemPipelineDepth 131072 64 131072 (sweepMachine 0) (sweepMachine r)) ∧
    ∀ bench m, Agree 131072 (sweepMachine 0) (sweepMachine 2) (memories 11 bench 131072 (sweepMachine 0) (sweepMachine 2)
      ((mainSystem (0 : Fin 3) 110 shmemPipelineDepth 131072 64 131072 fun r => sweepMachine r).acts 0)
      ((mainSystem (0 : Fin 3) 110 shmemPipelineDepth 131072 64 131072 fun r => sweepMachine r).acts 2) m 110) := by
  have reaches : ∀ rank bench, Reaches (sweepMachine rank) 11 bench := by
    intro rank bench
    cases bench with
    | xpmemNocache => exact (by decide : (0 : Int) ≤ 1)
    | xpmemCached => exact (by decide : (0 : Int) ≤ 1)
    | _ => trivial
  have agree := methods_agree (0 : Fin 3) 4096 1024 shmemPipelineDepth 110 131072 64 131072 (fun r => sweepMachine r) sweepMachine_sizes
    fun r => sweepMachine_host (roleOf 0 r) 110 r.isLt
  exact ⟨agree.1,fun bench m => agree.2 2 (by decide) 11 (by decide) bench (reaches 0 bench) (reaches 2 bench) m 109 (by decide)⟩

end MpidtBench.SweepAgreement
