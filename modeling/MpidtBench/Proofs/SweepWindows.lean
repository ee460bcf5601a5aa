import MpidtBench.Proofs.SweepShape

namespace MpidtBench.SweepWindows
open Traced CInteger ScatterGather Collective MpidtBench PipelineLoops PipelineDomain PipelineProtocol XpmemLoops SweepShape

-- The FIN Gather that ends what an RTS Bcast begins; benchmark_shmem_pip has a Bcast for
-- every chunk and no such pairs.
def closing : Event → Option Event
  | (some (q,bench),some j,.bcast _ _) => if bench = .shmemPip then none else some (some (q,bench),some j,.gather)
  | _ => none

def isTransfer : Act → Bool
  | .memcpy _ _ _ => true
  | .processVmReadv _ _ _ _ _ => true
  | .memcpySegment _ _ _ _ => true
  | _ => false

def Reads (event : Event) : Prop := isTransfer event.2.2 = true
def Needs (call : Event) : Prop := ∃ tag j what count, call = (some tag,some j,.bcast what count)
def Announces (call event : Event) : Prop := Needs call ∧ call.1 = event.1 ∧ call.2.1 = event.2.1
def Prepares (lbuf bufsize : Nat) (event call : Event) : Prop :=
  ∃ tag, call.1 = some tag ∧ event = (some tag,none,.memset lbuf 120 bufsize)

-- The windows of a list of actions; the sender does nothing inside one, and a receiver
-- copies nothing outside.
structure Opened (role : Role) (acts : List Event) : Prop where
  paired : Paired eventKind closing acts
  unbroken : role = .sender → Unbroken eventKind closing acts
  announced : role = .receiver → Announced eventKind Reads Announces acts

-- The sender has set its buffer in front of every window.
structure Disciplined (role : Role) (iters lbuf bufsize : Nat) (acts : List Event) : Prop extends Opened role acts where
  prepared : role = .sender → Prepared eventKind Needs (Prepares lbuf bufsize) acts
  iterated : ∀ event ∈ acts, event.2.1 ≠ none → 0 < iters

section
variable {role : Role} {iters lbuf bufsize blocksize : Nat} {acts first second : List Event} {tag : Nat × Bench}

theorem opened_append (left : Opened role first) (right : Opened role second) : Opened role (first ++ second) :=
  ⟨paired_append left.paired right.paired,
    fun sends => unbroken_append left.paired (left.unbroken sends) (right.unbroken sends),
    fun receives => announced_append (left.announced receives) (right.announced receives)⟩

theorem opened_none (closes : ∀ event ∈ acts, closing event = none) (still : ∀ event ∈ acts, ¬ Reads event) : Opened role acts :=
  ⟨paired_none closes,fun _ => unbroken_none closes,fun _ => announced_none still⟩

theorem disciplined_append (left : Disciplined role iters lbuf bufsize first) (right : Disciplined role iters lbuf bufsize second) :
    Disciplined role iters lbuf bufsize (first ++ second) := by
  refine ⟨opened_append left.toOpened right.toOpened,?_,?_⟩
  · exact fun sends => prepared_append (left.prepared sends) (right.prepared sends)
  · intro event member stamped
    rcases List.mem_append.mp member with here | there
    · exact left.iterated event here stamped
    · exact right.iterated event there stamped

-- Actions outside the iterations that copy nothing.
def Calm (event : Event) : Prop := event.2.1 = none ∧ isTransfer event.2.2 = false

theorem calm_closing {event : Event} (calm : Calm event) : closing event = none := by
  obtain ⟨tag,stamp,act⟩ := event
  obtain ⟨rfl,_⟩ := calm
  cases tag <;> cases act <;> rfl

theorem calm_needs {event : Event} (calm : Calm event) : ¬ Needs event := by
  intro given
  obtain ⟨_,_,_,_,rfl⟩ := given
  cases calm.1

theorem calm_opened (calm : ∀ event ∈ acts, Calm event) : Opened role acts := by
  refine opened_none (fun event member => calm_closing (calm event member)) ?_
  intro event member read
  rw [Reads,(calm event member).2] at read
  cases read

theorem calm_disciplined (calm : ∀ event ∈ acts, Calm event) : Disciplined role iters lbuf bufsize acts := by
  refine ⟨calm_opened calm,fun _ => ?_,?_⟩
  · intro s c known need
    exact absurd need (calm_needs (calm c (List.mem_filter.mp (List.mem_of_getElem? known)).1))
  · exact fun event member stamped => absurd (calm event member).1 stamped

theorem calm_single (event : Event) (outside : event.2.1 = none) (still : isTransfer event.2.2 = false) :
    Disciplined role iters lbuf bufsize [event] :=
  calm_disciplined fun other member => by rw [List.mem_singleton.mp member]; exact ⟨outside,still⟩

def placed (tag : Nat × Bench) (j : Nat) (block : List Act) : List Event :=
  (block.map (Prod.mk (some j))).map (Prod.mk (some tag))

theorem placed_append (j : Nat) (first second : List Act) : placed tag j (first ++ second) = placed tag j first ++ placed tag j second := by
  simp [placed]

theorem placed_mem {j : Nat} {block : List Act} {event : Event} (member : event ∈ placed tag j block) :
    ∃ act ∈ block, event = (some tag,some j,act) := by
  obtain ⟨_,stamped,rfl⟩ := List.mem_map.mp member
  obtain ⟨act,issued,rfl⟩ := List.mem_map.mp stamped
  exact ⟨act,issued,rfl⟩

theorem placed_quiet {j : Nat} {block : List Act} (quiet : ∀ act ∈ block, callKind act = none) :
    ∀ event ∈ placed tag j block, eventKind event = none := by
  intro event member
  obtain ⟨act,issued,rfl⟩ := placed_mem member
  exact quiet act issued

theorem handshake_opened {j : Nat} {block : List Act} (windowed : tag.2 ≠ .shmemPip)
    (shape : Handshake role (.bcast what count) block) : Opened role (placed tag j block) := by
  obtain ⟨lead,trail,rfl,quiet,sends,receives⟩ := shape
  have silent := @placed_quiet tag j (lead ++ trail) quiet
  have whole : placed tag j (lead ++ .bcast what count :: (trail ++ [.gather])) = placed tag j lead ++
      (some tag,some j,.bcast what count) :: (placed tag j trail ++ [(some tag,some j,.gather)]) := by simp [placed]
  have pair : closing (some tag,some j,.bcast what count) = some (some tag,some j,.gather) := by
    obtain ⟨q,bench⟩ := tag
    exact if_neg windowed
  rw [whole]
  rw [placed_append] at silent
  refine ⟨window_paired silent rfl rfl pair rfl,?_,?_⟩
  · intro sending
    rw [sends sending] at silent ⊢
    exact window_unbroken (fun event member => silent event (List.mem_append_left _ member)) rfl rfl rfl
  · intro receiving
    rw [receives receiving] at silent ⊢
    refine window_announced silent rfl rfl ?_ ?_
    · intro event member read
      simp only [placed,List.map_nil,List.nil_append,List.mem_cons,List.not_mem_nil,or_false] at member
      rcases member with rfl | rfl <;> cases read
    · intro event member _
      obtain ⟨act,_,rfl⟩ := placed_mem member
      exact ⟨⟨_,_,_,_,rfl⟩,rfl,rfl⟩

-- A chunk of the receiver's loop: the Bcast and the copies behind it.
theorem round_opened {j : Nat} (pipelined : tag.2 = .shmemPip) (ptr moved : Nat) (pieces : List IoVec) :
    Opened role (placed tag j (roundActs role ptr moved pieces)) := by
  have none_closes : ∀ event ∈ placed tag j (roundActs role ptr moved pieces), closing event = none := by
    intro event member
    obtain ⟨act,_,rfl⟩ := placed_mem member
    obtain ⟨q,bench⟩ := tag
    obtain rfl : bench = .shmemPip := pipelined
    cases act <;> rfl
  refine ⟨paired_none none_closes,fun _ => unbroken_none none_closes,?_⟩
  intro receives
  subst receives
  intro event t located read
  have quiet := @placed_quiet tag j _ (copies_local .receiver ptr moved pieces)
  have shape : placed tag j (roundActs .receiver ptr moved pieces) =
      [(some tag,some j,.bcast .dummy 1)] ++ placed tag j ((copies .receiver ptr moved pieces).map ofCopy) := by
    simp [placed,roundActs,entry,exit]
  rw [shape,located_append,located_singleton] at located
  rw [shape]
  rcases located with ⟨rfl,_⟩ | ⟨u,inside,rfl⟩
  · cases read
  · obtain ⟨member,rfl⟩ := (located_local quiet).mp inside
    obtain ⟨act,_,rfl⟩ := placed_mem member
    exact ⟨0,_,rfl,call_append_left rfl _,⟨_,_,_,_,rfl⟩,rfl,rfl⟩

theorem pip_opened {full ptr j : Nat} {liov : List IoVec} (pipelined : tag.2 = .shmemPip) :
    Opened role (placed tag j (iterationActs role full ptr liov)) := by
  have chunks_opened : ∀ moved rounds, Opened role (placed tag j (roundsActs role ptr moved rounds)) := by
    intro moved rounds
    induction rounds generalizing moved with
    | nil => exact opened_none (fun _ member => absurd member List.not_mem_nil) fun _ member => absurd member List.not_mem_nil
    | cons pieces rest ih =>
        rw [roundsActs,placed_append]
        exact opened_append (round_opened pipelined ptr moved pieces) (ih _)
  rw [iterationActs,placed_append]
  refine opened_append (chunks_opened _ _) (opened_none ?_ ?_)
  · intro event member
    rw [List.mem_singleton.mp member]
    rfl
  · intro event member
    rw [List.mem_singleton.mp member]
    intro reads
    cases reads

-- A benchmark, given its iterations: the buffer is set in front of the first one.
theorem benchmark_disciplined {front back : List Stamped} {blocks : Nat → List Act}
    (opened : ∀ j < iters, Opened role (placed tag j (blocks j)))
    (calm : ∀ event ∈ front ++ back, event.1 = none ∧ isTransfer event.2 = false)
    (set : (none,.memset lbuf (initByte role) bufsize) ∈ front) :
    Disciplined role iters lbuf bufsize
      ((front ++ ((List.range iters).flatMap (fun j => (blocks j).map (Prod.mk (some j))) ++ back)).map (Prod.mk (some tag))) := by
  have middle : ((List.range iters).flatMap (fun j => (blocks j).map (Prod.mk (some j)))).map (Prod.mk (some tag)) =
      (List.range iters).flatMap fun j => placed tag j (blocks j) := by rw [List.map_flatMap]; rfl
  have edges : ∀ event ∈ front ++ back, Calm ((some tag,event) : Event) := calm
  have before : ∀ event ∈ front.map (Prod.mk (some tag)), Calm event := by
    intro event member
    obtain ⟨stamped,inside,rfl⟩ := List.mem_map.mp member
    exact edges stamped (List.mem_append_left _ inside)
  have behind : ∀ event ∈ back.map (Prod.mk (some tag)), Calm event := by
    intro event member
    obtain ⟨stamped,inside,rfl⟩ := List.mem_map.mp member
    exact edges stamped (List.mem_append_right _ inside)
  have passes : Opened role ((List.range iters).flatMap fun j => placed tag j (blocks j)) :=
    flatMap_closed (calm_opened fun _ member => absurd member List.not_mem_nil) (fun _ _ left right => opened_append left right)
      fun j member => opened j (List.mem_range.mp member)
  rw [List.map_append,List.map_append,middle]
  refine ⟨opened_append (calm_opened before) (opened_append passes (calm_opened behind)),?_,?_⟩
  · intro sends
    subst sends
    refine prepared_front (List.mem_map.mpr ⟨_,set,rfl⟩) (fun event member => calm_needs (before event member)) ?_
    intro event member need
    refine ⟨tag,?_,rfl⟩
    rcases List.mem_append.mp member with inside | later
    · obtain ⟨j,_,issued⟩ := List.mem_flatMap.mp inside
      obtain ⟨act,_,rfl⟩ := placed_mem issued
      rfl
    · obtain ⟨stamped,_,rfl⟩ := List.mem_map.mp later
      rfl
  · intro event member stamped
    rcases List.mem_append.mp member with early | rest
    · exact absurd (before event early).1 stamped
    · rcases List.mem_append.mp rest with inside | later
      · obtain ⟨j,low,_⟩ := List.mem_flatMap.mp inside
        exact Nat.lt_of_le_of_lt (Nat.zero_le j) (List.mem_range.mp low)
      · exact absurd (behind event later).1 stamped

end
end MpidtBench.SweepWindows
