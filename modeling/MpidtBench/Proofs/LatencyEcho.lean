import MpidtBench.Model.LatencyData
import MpidtBench.Proofs.Delivery
import MpidtBench.Proofs.LatencySweep

namespace MpidtBench.LatencyEcho
open Traced CInteger ByteMemory Stored Datatype MpidtBench LatencySweep OptionParsing
open MpidtBench.Delivery (Apart)

def sample : Point := ⟨1,2,3,4⟩
def blank : Point := ⟨0,0,0,0⟩

def pointBytes (p : Point) : List UInt8 := toBytes 2 p.x ++ toBytes 2 p.y ++ toBytes 2 p.z ++ toBytes 2 p.t

-- How many elements of r_buf have been received into since the last loop over them, as long as there is an r_buf.
def arrive (n : Option Nat) : LatencyAct → Option Nat
  | .fill _ _ _ => some 0
  | .recv count _ _ => n.map (max count.toNat)
  | .free => none
  | _ => n

def arrived (past : List LatencyAct) : Option Nat := past.foldl arrive none

-- What a rank finds in its memory behind these actions, before which it was `before`.
structure Echoed (buffers : PointBuffers) (before : Memory) (past : List LatencyAct) (m : Memory) : Prop where
  sent : ∀ n, arrived past = some n → ∀ j < maxNumElems, pointAt m (buffers.sBuf + 8 * j) = sample
  received : ∀ n, arrived past = some n → ∀ j < maxNumElems, pointAt m (buffers.rBuf + 8 * j) = if j < n then sample else blank
  outside : ∀ a, (∀ j < maxNumElems * 8, a ≠ buffers.sBuf + j ∧ a ≠ buffers.rBuf + j) → m a = before a

structure EchoedBytes (buffers : PointBuffers) (before : Memory) (past : List LatencyAct) (m : Memory) : Prop where
  sent : ∀ n, arrived past = some n → ∀ j < maxNumElems, peek m (buffers.sBuf + 8 * j) 8 = pointBytes sample
  received : ∀ n, arrived past = some n → ∀ j < maxNumElems,
    peek m (buffers.rBuf + 8 * j) 8 = pointBytes (if j < n then sample else blank)
  outside : ∀ a, (∀ j < maxNumElems * 8, a ≠ buffers.sBuf + j ∧ a ≠ buffers.rBuf + j) → m a = before a

-- A message carries so many elements of s_buf.
def Carries (message : Envelope) (payload : List UInt8) : Prop := payload.length = message.count.toNat * 8 ∧
  ∀ j < message.count.toNat, cut payload (8 * j) 8 = pointBytes sample

section
variable {buffers : PointBuffers} {before m : Memory} {past rest acts : List LatencyAct} {a : LatencyAct} {myid n k : Nat} {p q : Point}

theorem pointBytes_length (p : Point) : (pointBytes p).length = 8 := by simp [pointBytes]

theorem putPoint_bytes (ptr : Nat) (p : Point) (m : Memory) : putPoint ptr p m = put m ptr (pointBytes p) := by
  rw [pointBytes,← put_append,← put_append,← put_append,putPoint]
  simp only [List.length_append,toBytes_length]

-- A field of a point, from the bytes it has within the element.
theorem field_of {ptr offset : Nat} {x : Int} (bytes : peek m ptr 8 = pointBytes p) (within : offset + 2 ≤ 8)
    (field : cut (pointBytes p) offset 2 = toBytes 2 x) (short : -32768 ≤ x ∧ x < 32768) : integer (peek m (ptr + offset) 2) = x := by
  rw [← cut_peek m ptr within,bytes,field]
  exact integer_toBytes (by norm_num; omega) (by norm_num; omega)

def Short (p : Point) : Prop := ∀ x ∈ [p.x,p.y,p.z,p.t], -32768 ≤ x ∧ x < 32768

theorem pointAt_bytes {ptr : Nat} (short : Short p) (bytes : peek m ptr 8 = pointBytes p) : pointAt m ptr = p := by
  simp only [Short,List.forall_mem_cons] at short
  obtain ⟨x,y,z,t,_⟩ := short
  have first : integer (peek m (ptr + 0) 2) = p.x := field_of bytes (by decide) rfl x
  have second := @field_of m p ptr 2 p.y bytes (by decide) rfl y
  have third := @field_of m p ptr 4 p.z bytes (by decide) rfl z
  have fourth := @field_of m p ptr 6 p.t bytes (by decide) rfl t
  rw [Nat.add_zero] at first
  rw [pointAt,first,second,third,fourth]

theorem point_dense : Datatype.Dense pointType := contiguous_dense (basic_dense 2) 4

theorem points_addrs (ptr count : Nat) : ScatterGather.addrs (elements ptr count pointType) = List.range' ptr (count * 8) :=
  elements_dense point_dense ptr count

theorem fillPoints_succ (buffers : PointBuffers) (n : Nat) (p q : Point) (m : Memory) :
    fillPoints buffers (n+1) p q m =
      put (put (fillPoints buffers n p q m) (buffers.sBuf + 8 * n) (pointBytes p)) (buffers.rBuf + 8 * n) (pointBytes q) := by
  rw [fillPoints,List.range_succ,List.foldl_append,List.foldl_cons,List.foldl_nil,fillStep,putPoint_bytes,putPoint_bytes]
  rfl

-- What is written behind an element, or in the other array, leaves it alone.
theorem fill_elements (apart : Apart buffers.sBuf buffers.rBuf (maxNumElems * 8)) (p q : Point) (m : Memory) (upto : n ≤ maxNumElems) :
    ∀ j < n, peek (fillPoints buffers n p q m) (buffers.sBuf + 8 * j) 8 = pointBytes p ∧
      peek (fillPoints buffers n p q m) (buffers.rBuf + 8 * j) 8 = pointBytes q := by
  have long := pointBytes_length
  induction n with
  | zero => exact fun j below => absurd below (Nat.not_lt_zero j)
  | succ n ih =>
      intro j below
      unfold Delivery.Apart at apart
      rw [fillPoints_succ]
      rcases Nat.lt_succ_iff_lt_or_eq.mp below with earlier | rfl
      · obtain ⟨sent,received⟩ := ih (Nat.le_of_succ_le upto) j earlier
        constructor
        · rw [peek_apart (by rw [long]; omega),peek_apart (by rw [long]; omega),sent]
        · rw [peek_apart (by rw [long]; omega),peek_apart (by rw [long]; omega),received]
      · constructor
        · rw [peek_apart (by rw [long]; omega)]
          exact peek_put_whole _ _ (long p)
        · exact peek_put_whole _ _ (long q)

theorem fill_outside (p q : Point) (m : Memory) {b : Nat} (outside : ∀ j < n * 8, b ≠ buffers.sBuf + j ∧ b ≠ buffers.rBuf + j) :
    fillPoints buffers n p q m b = m b := by
  have long := pointBytes_length
  induction n with
  | zero => rfl
  | succ n ih =>
      have clear : ∀ base, (∀ j < (n+1) * 8, b ≠ base + j) → b < base + 8 * n ∨ base + 8 * n + 8 ≤ b := by
        intro base apart
        by_contra inside
        exact apart (b - base) (by omega) (by omega)
      rw [fillPoints_succ,put_outside (by rw [long]; exact clear _ fun j below => (outside j below).2),
        put_outside (by rw [long]; exact clear _ fun j below => (outside j below).1)]
      exact ih fun j below => outside j (by omega)

theorem arrived_next (past : List LatencyAct) (a : LatencyAct) : arrived (past ++ [a]) = arrive (arrived past) a := by
  rw [arrived,List.foldl_append]
  rfl

theorem EchoedBytes.idle (echoed : EchoedBytes buffers before past m) (same : arrive (arrived past) a = arrived past) :
    EchoedBytes buffers before (past ++ [a]) m := by
  refine ⟨fun n known => echoed.sent n ?_,fun n known => echoed.received n ?_,echoed.outside⟩
  all_goals rw [← same,← arrived_next,known]

theorem EchoedBytes.freed (echoed : EchoedBytes buffers before past m) : EchoedBytes buffers before (past ++ [.free]) m := by
  have nothing : ∀ n, arrived (past ++ [.free]) ≠ some n := by
    intro n known
    rw [arrived_next] at known
    cases known
  exact ⟨fun n known => absurd known (nothing n),fun n known => absurd known (nothing n),echoed.outside⟩

theorem EchoedBytes.filled (apart : Apart buffers.sBuf buffers.rBuf (maxNumElems * 8)) (echoed : EchoedBytes buffers before past m) :
    EchoedBytes buffers before (past ++ [.fill maxNumElems sample blank]) (fillPoints buffers maxNumElems sample blank m) := by
  have elements := fill_elements apart sample blank m (Nat.le_refl _)
  refine ⟨fun n _ j below => (elements j below).1,fun n known j below => ?_,fun b clear => ?_⟩
  · rw [arrived_next] at known
    cases known
    exact (elements j below).2
  · rw [fill_outside sample blank m clear]
    exact echoed.outside b clear

theorem EchoedBytes.carries (echoed : EchoedBytes buffers before past m) (filled : arrived past = some n) (message : Envelope)
    (few : message.count.toNat ≤ maxNumElems) :
    Carries message (gather m (elements buffers.sBuf message.count.toNat pointType)) := by
  rw [gather_dense (points_addrs _ _)]
  refine ⟨peek_length _ _ _,fun j below => ?_⟩
  rw [cut_peek m _ (by omega)]
  exact echoed.sent n filled j (by omega)

-- A message covers the elements it has, and the array keeps the others.
theorem EchoedBytes.stored (apart : Apart buffers.sBuf buffers.rBuf (maxNumElems * 8)) (echoed : EchoedBytes buffers before past m)
    (message : Envelope) (few : message.count.toNat ≤ maxNumElems) (source tag : Nat) {payload : List UInt8} (carries : Carries message payload) :
    EchoedBytes buffers before (past ++ [.recv message.count source tag])
      (scatter (elements buffers.rBuf message.count.toNat pointType) payload m) := by
  obtain ⟨sized,cuts⟩ := carries
  unfold Delivery.Apart at apart
  rw [scatter_dense (points_addrs _ _) (Nat.le_of_eq sized)]
  refine ⟨fun n known j below => ?_,fun n known j below => ?_,fun b clear => ?_⟩
  · rw [arrived_next] at known
    obtain ⟨held,filled,_⟩ := Option.map_eq_some_iff.mp known
    rw [peek_apart (by omega)]
    exact echoed.sent held filled j below
  · rw [arrived_next] at known
    obtain ⟨held,filled,rfl⟩ := Option.map_eq_some_iff.mp known
    by_cases inside : j < message.count.toNat
    · rw [peek_put _ _ (by omega),cuts j inside,if_pos (by omega)]
    · rw [peek_apart (by omega),echoed.received held filled j below]
      congr 1
      by_cases covered : j < held
      · rw [if_pos covered,if_pos (by omega)]
      · rw [if_neg covered,if_neg (by omega)]
  · rw [put_outside]
    · exact echoed.outside b clear
    · by_contra inside
      exact (clear (b - buffers.rBuf) (by omega)).2 (by omega)

-- Before every message that a rank sends or receives its buffers have been filled, and it is one that fits.
structure Guarded (acts : List LatencyAct) : Prop where
  filled : ∀ past a rest count, acts = past ++ a :: rest → a.count = some count → ∃ n, arrived past = some n
  fits : ∀ a ∈ acts, ∀ count, a.count = some count → count.toNat ≤ maxNumElems
  fills : ∀ elems sent received, .fill elems sent received ∈ acts → elems = maxNumElems ∧ sent = sample ∧ received = blank

theorem honest (guarded : Guarded acts) (apart : Apart buffers.sBuf buffers.rBuf (maxNumElems * 8)) (myid : Nat) (before : Memory) :
    Session.Honest (latencyConduct myid buffers) Carries (EchoedBytes buffers before) acts := by
  constructor
  · intro past a rest m whole quiet echoed
    have member : a ∈ acts := by rw [whole]; exact List.mem_append_right _ List.mem_cons_self
    cases a with
    | posixMemalign => exact echoed.idle rfl
    | fill elems sent received =>
        change EchoedBytes buffers before _ (fillPoints buffers elems sent received m)
        obtain ⟨rfl,rfl,rfl⟩ := guarded.fills _ _ _ member
        exact echoed.filled apart
    | barrier => cases quiet
    | send => cases quiet
    | recv => cases quiet
    | free => exact echoed.freed
    | finalize => exact echoed.idle rfl
  · intro past a rest m message whole sends echoed
    have member : a ∈ acts := by rw [whole]; exact List.mem_append_right _ List.mem_cons_self
    cases a with
    | send count dest tag =>
        obtain ⟨n,filled⟩ := guarded.filled past _ rest count whole rfl
        have few := guarded.fits _ member count rfl
        cases sends
        exact ⟨echoed.carries filled ⟨myid,dest,tag,count⟩ few,echoed.idle rfl⟩
    | posixMemalign => cases sends
    | fill => cases sends
    | barrier => cases sends
    | recv => cases sends
    | free => cases sends
    | finalize => cases sends
  · intro past a rest m message payload whole asks carries echoed
    have member : a ∈ acts := by rw [whole]; exact List.mem_append_right _ List.mem_cons_self
    cases a with
    | recv count source tag =>
        have few := guarded.fits _ member count rfl
        cases asks
        exact echoed.stored apart ⟨source,myid,tag,count⟩ few source tag carries
    | posixMemalign => cases asks
    | fill => cases asks
    | barrier => cases asks
    | send => cases asks
    | free => cases asks
    | finalize => cases asks
  · intro past a rest m whole meets echoed
    cases a with
    | barrier => exact echoed.idle rfl
    | posixMemalign => cases meets
    | fill => cases meets
    | send => cases meets
    | recv => cases meets
    | free => cases meets
    | finalize => cases meets

theorem EchoedBytes.points (echoed : EchoedBytes buffers before past m) : Echoed buffers before past m := by
  have samples : Short sample := by unfold Short; decide
  have blanks : Short blank := by unfold Short; decide
  refine ⟨fun n known j below => pointAt_bytes samples (echoed.sent n known j below),fun n known j below => ?_,echoed.outside⟩
  have bytes := echoed.received n known j below
  split at bytes
  · rename_i covered
    rw [if_pos covered]
    exact pointAt_bytes samples bytes
  · rename_i uncovered
    rw [if_neg uncovered]
    exact pointAt_bytes blanks bytes

theorem arrived_some (kept : ∀ a ∈ acts, a ≠ .free) : ∃ n, acts.foldl arrive (some k) = some n := by
  induction acts generalizing k with
  | nil => exact ⟨k,rfl⟩
  | cons a rest ih =>
      have later := fun b member => kept b (List.mem_cons_of_mem a member)
      cases a with
      | free => exact absurd rfl (kept .free List.mem_cons_self)
      | fill => exact ih later
      | recv => exact ih later
      | posixMemalign => exact ih later
      | barrier => exact ih later
      | send => exact ih later
      | finalize => exact ih later

theorem mem_pair {cnt : Int} (member : a ∈ pair myid cnt) :
    (∃ count dest tag, a = .send count dest tag) ∨ ∃ count source tag, a = .recv count source tag := by
  unfold pair at member
  split at member
  all_goals
    simp only [List.mem_cons,List.not_mem_nil,or_false] at member
    rcases member with rfl | rfl
  · exact .inl ⟨_,_,_,rfl⟩
  · exact .inr ⟨_,_,_,rfl⟩
  · exact .inr ⟨_,_,_,rfl⟩
  · exact .inl ⟨_,_,_,rfl⟩

theorem mem_round {part : Int × Nat} (member : a ∈ LatencySweep.round myid part) : a = .fill maxNumElems sample blank ∨ a = .barrier ∨
    (∃ count dest tag, a = .send count dest tag) ∨ ∃ count source tag, a = .recv count source tag := by
  rcases List.mem_append.mp member with before | exchanged
  · simp only [List.mem_cons,List.not_mem_nil,or_false] at before
    rcases before with rfl | rfl
    · exact .inl rfl
    · exact .inr (.inl rfl)
  · obtain ⟨block,repeated,inside⟩ := List.mem_flatten.mp exchanged
    rw [List.eq_of_mem_replicate repeated] at inside
    exact .inr (.inr (mem_pair inside))

theorem rounds_unfreed {parts : List (Int × Nat)} (member : a ∈ parts.flatMap (LatencySweep.round myid)) : a ≠ .free := by
  obtain ⟨part,_,inside⟩ := List.mem_flatMap.mp member
  rintro rfl
  rcases mem_round inside with filled | met | ⟨_,_,_,sends⟩ | ⟨_,_,_,asks⟩
  · cases filled
  · cases met
  · cases sends
  · cases asks

theorem opening_quiet (member : a ∈ opening extent) : a.count = none := by
  simp only [opening,List.mem_cons,List.not_mem_nil,or_false] at member
  rcases member with rfl | rfl | rfl <;> rfl

theorem closing_quiet (member : a ∈ closing) : a.count = none := by
  simp only [closing,List.mem_cons,List.not_mem_nil,or_false] at member
  rcases member with rfl | rfl | rfl <;> rfl

-- A count is passed in a round, behind the loop over the elements with which it begins.
theorem main_filled {extent : Nat} {parts : List (Int × Nat)} {count : Int}
    (whole : opening extent ++ parts.flatMap (LatencySweep.round myid) ++ closing = past ++ a :: rest) (counted : a.count = some count) :
    ∃ n, arrived past = some n := by
  rcases append_split whole with ⟨_,front,_⟩ | ⟨_,_,behind⟩
  · rcases append_split front with ⟨_,before,_⟩ | ⟨inner,before,between⟩
    · rw [opening_quiet (by rw [before]; simp)] at counted
      cases counted
    · cases parts with
      | nil => simp at between
      | cons part more =>
          cases inner with
          | nil =>
              injection between with same _
              rw [← same] at counted
              cases counted
          | cons first done =>
              have unfreed : ∀ b ∈ done, b ≠ .free := by
                intro b member
                refine @rounds_unfreed b myid (part :: more) ?_
                rw [between]
                exact List.mem_append_left _ (List.mem_cons_of_mem _ member)
              injection between with same _
              rw [before,← same,arrived,List.foldl_append,List.foldl_cons]
              exact arrived_some unfreed
  · rw [closing_quiet (by rw [behind]; simp)] at counted
    cases counted

theorem main_fills {extent elems : Nat} {parts : List (Int × Nat)}
    (member : .fill elems p q ∈ opening extent ++ parts.flatMap (LatencySweep.round myid) ++ closing) :
    elems = maxNumElems ∧ p = sample ∧ q = blank := by
  rcases List.mem_append.mp member with front | later
  · rcases List.mem_append.mp front with before | exchanged
    · simp [opening] at before
    · obtain ⟨part,_,inside⟩ := List.mem_flatMap.mp exchanged
      rcases mem_round inside with filled | met | ⟨_,_,_,sends⟩ | ⟨_,_,_,asks⟩
      · cases filled
        exact ⟨rfl,rfl,rfl⟩
      · cases met
      · cases sends
      · cases asks
  · simp [closing] at later

theorem guarded_main (parsed : processOptions opts = .ok options) (small : options.minMessageSize ≤ maxNumElems) (rank : myid < 2) :
    Guarded (osuLatencyContig myid 2 pointType.extent true true opts).acts := by
  have exactly := kept_exact parsed (by decide : 0 < pointType.extent) (by decide) small
  have run := main_run parsed (by decide : 0 < pointType.extent) rank
  refine ⟨fun past a rest count whole counted => ?_,fun a member count counted => ?_,fun elems sent received member => ?_⟩
  · rw [run] at whole
    exact main_filled whole counted
  · obtain ⟨_,fits⟩ := exactly.fits myid rank a member count counted
    rw [mulSize_exact (by decide)] at fits
    change count * 8 ≤ ((524288 * 8 : Nat) : Int) at fits
    unfold maxNumElems
    omega
  · rw [run] at member
    exact main_fills member

theorem initial (buffers : PointBuffers) (m : Memory) : EchoedBytes buffers m [] m := by
  refine ⟨fun n known => ?_,fun n known => ?_,fun _ _ => rfl⟩
  · cases known
  · cases known

theorem pong_mem (some_pairs : 0 < n) (count : Int) : .recv count 0 1 ∈ LatencySweep.round 1 (count,n) := by
  refine List.mem_append_right _ (List.mem_flatten.mpr ⟨pair 1 count,?_,List.mem_cons_self⟩)
  exact List.mem_replicate.mpr ⟨Nat.ne_of_gt some_pairs,rfl⟩

theorem validate_none {cnt : Int} (all : ∀ j < cnt.toNat, pointAt m (buffers.rBuf + 8 * j) = sample) : validateErrors buffers cnt m = 0 := by
  unfold validateErrors
  generalize cnt.toNat = n at all ⊢
  induction n with
  | zero => rfl
  | succ n ih =>
      rw [List.range_succ,List.foldl_append,List.foldl_cons,List.foldl_nil,ih fun j below => all j (Nat.lt_succ_of_lt below)]
      exact if_pos (all n (Nat.lt_succ_self n))

-- Behind the first pair of a round as many elements have been received as the count says.
theorem arrived_pairs (count : Int) (n : Nat) :
    (List.replicate n (pair 1 count)).flatten.foldl arrive (some count.toNat) = some count.toNat := by
  induction n with
  | zero => rfl
  | succ n ih =>
      have again : (pair 1 count).foldl arrive (some count.toNat) = some count.toNat := congrArg some (Nat.max_self count.toNat)
      rw [List.replicate_succ,List.flatten_cons,List.foldl_append,again,ih]

theorem arrived_round {count : Int} (some_pairs : 0 < n) (ended : LatencySweep.round 1 (count,n) <:+ past) : arrived past = some count.toNat := by
  obtain ⟨front,rfl⟩ := ended
  cases n with
  | zero => cases some_pairs
  | succ n =>
      have first : (pair 1 count).foldl arrive (some 0) = some count.toNat := congrArg some (Nat.max_zero count.toNat)
      rw [arrived,List.foldl_append,LatencySweep.round,List.foldl_append,List.replicate_succ,List.flatten_cons,List.foldl_append]
      change (List.replicate n (pair 1 count)).flatten.foldl arrive ((pair 1 count).foldl arrive (some 0)) = _
      rw [first,arrived_pairs]

theorem Echoed.validated (echoed : Echoed buffers before past m) {count : Int} (some_pairs : 0 < n) (ended : LatencySweep.round 1 (count,n) <:+ past)
    (few : count.toNat ≤ maxNumElems) : validateErrors buffers count m = 0 := by
  have received := echoed.received _ (arrived_round some_pairs ended)
  refine validate_none fun j below => ?_
  rw [received j (by omega),if_pos below]

end

-- However the steps of the two ranks fall: whatever has been received since the buffers were filled is what the
-- other one sent, the rest of r_buf and all of s_buf are as they were filled, nothing else is written, the check at
-- the end of a count finds no errors, and neither rank waits for ever.
theorem latency_echoed (parsed : processOptions opts = .ok options) (small : options.minMessageSize ≤ maxNumElems) {first second : PointBuffers}
    (ours : Apart first.sBuf first.rBuf (maxNumElems * 8)) (theirs : Apart second.sBuf second.rBuf (maxNumElems * 8)) {m w : Memory}
    {scene : Session.Scene LatencyAct Envelope (List UInt8) Memory}
    (traded : Session.Traded (latencyConduct 0 first) (latencyConduct 1 second) (latencyScene opts m w) scene) :
    Echoed first m scene.left.past scene.left.state ∧ Echoed second w scene.right.past scene.right.state ∧
      (∀ count n, 0 < n → LatencySweep.round 1 (count,n) <:+ scene.right.past → validateErrors second count scene.right.state = 0) ∧
      (scene.left.rest = [] ∧ scene.right.rest = [] ∨ ∃ next, Session.Trade (latencyConduct 0 first) (latencyConduct 1 second) scene next) := by
  have filled := guarded_main parsed small (by decide : 0 < 2)
  have guarded := guarded_main parsed small (by decide : 1 < 2)
  have dual : (osuLatencyContig 1 2 pointType.extent true true opts).acts.filterMap (comm 1) =
      ((osuLatencyContig 0 2 pointType.extent true true opts).acts.filterMap (comm 0)).map Session.Comm.dual := by
    rw [main_run parsed (by decide) (by decide),main_run parsed (by decide) (by decide)]
    exact comms_dual _
  have kept := Session.traded_kept dual (honest filled ours 0 m) (honest guarded theirs 1 w) (initial first m) (initial second w) traded
  have left := kept.holds.points
  have right := kept.others.points
  refine ⟨left,right,fun count n some_pairs ended => ?_,Session.traded_live dual traded⟩
  refine right.validated some_pairs ended (guarded.fits (.recv count 0 1) ?_ count rfl)
  rw [kept.theirs]
  exact List.mem_append_left _ (ended.subset (pong_mem some_pairs count))

-- How the run of a rank begins, with whatever count it begins.
theorem first_round (parsed : processOptions opts = .ok options) (more : toInt options.minMessageSize ≤ maxNumElems) (rank : myid < 2) :
    ∃ rest, (osuLatencyContig myid 2 pointType.extent true true opts).acts =
      opening pointType.extent ++ [.fill maxNumElems sample blank,.barrier] ++ pair myid (toInt options.minMessageSize) ++ rest := by
  have positive := turns_positive (current_settings (s := .start options) pointType.extent (parsed_settings parsed))
  obtain ⟨n,some_pairs⟩ : ∃ n, turns (current pointType.extent (.start options)) = n + 1 := ⟨_,(Nat.sub_add_cancel positive).symm⟩
  have head : rounds pointType.extent latencyFuel (.start options) =
      (toInt options.minMessageSize,n+1) :: rounds pointType.extent 65 (next pointType.extent (.start options)) := by
    rw [show latencyFuel = 65+1 from rfl,rounds,start_cnt,if_pos more,some_pairs]
  rw [main_run parsed (by decide) rank,head,List.flatMap_cons,LatencySweep.round,List.replicate_succ,List.flatten_cons]
  exact ⟨(List.replicate n (pair myid (toInt options.minMessageSize))).flatten ++
    (rounds pointType.extent 65 (next pointType.extent (.start options))).flatMap (LatencySweep.round myid) ++ closing,by
      simp only [List.append_assoc]; rfl⟩

theorem first_message (first second : PointBuffers) (count : Int) (ours theirs : List LatencyAct) (m w : Memory) :
    ∃ scene, Session.Traded (latencyConduct 0 first) (latencyConduct 1 second)
      (.opening (opening pointType.extent ++ [.fill maxNumElems sample blank,.barrier] ++ pair 0 count ++ ours)
        (opening pointType.extent ++ [.fill maxNumElems sample blank,.barrier] ++ pair 1 count ++ theirs) m w) scene ∧
      arrived scene.right.past = some count.toNat := by
  have begun := @Session.Traded.start _ _ _ _ (latencyConduct 0 first) (latencyConduct 1 second)
    (.opening (opening pointType.extent ++ [.fill maxNumElems sample blank,.barrier] ++ pair 0 count ++ ours)
      (opening pointType.extent ++ [.fill maxNumElems sample blank,.barrier] ++ pair 1 count ++ theirs) m w)
  have allocated := (((begun.step (.actLeft rfl rfl)).step (.actLeft rfl rfl)).step (.actRight rfl rfl)).step (.actRight rfl rfl)
  have filled := ((allocated.step (.meet rfl rfl rfl rfl)).step (.actLeft rfl rfl)).step (.actRight rfl rfl)
  exact ⟨_,((filled.step (.meet rfl rfl rfl rfl)).step (.sendLeft rfl rfl)).step (.recvRight rfl rfl rfl),congrArg some (Nat.max_zero _)⟩

-- `-i 20 -m 4:`: the first message, of four elements, in the r_buf of rank 1.
theorem latency_echoed_first_message : ∃ scene, Session.Traded (latencyConduct 0 ⟨0,4194304⟩) (latencyConduct 1 ⟨0,4194304⟩)
      (latencyScene [⟨'i',['2','0'],' '⟩,⟨'m',['4',':'],' '⟩] (fun _ => 7) (fun _ => 9)) scene ∧
    pointAt scene.right.state (4194304 + 8 * 3) = ⟨1,2,3,4⟩ ∧ pointAt scene.right.state (4194304 + 8 * 4) = ⟨0,0,0,0⟩ := by
  have parsed : processOptions [⟨'i',['2','0'],' '⟩,⟨'m',['4',':'],' '⟩] = .ok ⟨4,4194304,20,20,100,10⟩ := rfl
  have apart : Apart 0 4194304 (maxNumElems * 8) := .inl (by decide)
  obtain ⟨ours,left⟩ := first_round parsed (by decide) (by decide : 0 < 2)
  obtain ⟨theirs,right⟩ := first_round parsed (by decide) (by decide : 1 < 2)
  obtain ⟨scene,traded,four⟩ := first_message ⟨0,4194304⟩ ⟨0,4194304⟩ (toInt 4) ours theirs (fun _ => 7) (fun _ => 9)
  rw [← left,← right] at traded
  have echoed := (latency_echoed parsed (by decide) apart apart traded).2.1
  exact ⟨scene,traded,echoed.received _ four 3 (by decide),echoed.received _ four 4 (by decide)⟩

end MpidtBench.LatencyEcho
