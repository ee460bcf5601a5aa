import MpidtBench.Proofs.SharedDelivery
import MpidtBench.Proofs.SweepRuns

namespace MpidtBench.SharedRounds
open Traced CInteger ScatterGather ByteMemory MpidtBench PipelineLoops PipelineProtocol Delivery SweepRuns SharedDelivery
open Collective hiding Place

-- One iteration: it goes through the region in rounds of so many bytes, or a receiver
-- fetches everything from the sender's memory between its RTS and its FIN.
structure Iterates (place : Place) (region : Bool) (cuts : List Nat) (block : List Act) : Prop where
  serves : Serves place region block
  keeps : ∀ act ∈ block, ¬ Wipes act
  chunked : region = true → ∃ rounds, block = roundsActs place.role place.ptr 0 rounds ++ [.gather] ∧ rounds.map total = cuts
  window : region = false → ∃ rts trail, block = rts :: (trail ++ [.gather]) ∧ callKind rts = some .bcast ∧
    (∀ act ∈ trail, callKind act = none ∧ ∀ dst src len, act ≠ .memcpy dst src len) ∧ (place.role = .sender → trail = [])

def Idle : Act → Prop
  | .bcast _ _ => True
  | .barrier => True
  | .xpmemRelease _ => True
  | .free _ => True
  | _ => False

-- A benchmark: its iterations, between a memset in front and calls that move no data.
structure Formed (place : Place) (region : Bool) (cuts : List Nat) (byte : UInt8) (opening closing : List Kind) (iters : Nat)
    (acts : List Stamped) : Prop where
  split : ∃ front back blocks, acts = front ++ (stampBlocks iters blocks ++ back) ∧
    kinds stampedKind front = opening ∧ kinds stampedKind back = closing ∧
    (∃ stamp, (stamp,.memset place.lbuf byte place.bufsize) ∈ front) ∧
    (∀ event ∈ front ++ back, event.2 = .memset place.lbuf byte place.bufsize ∨ Idle event.2) ∧
    ∀ j < iters, Iterates place region cuts (blocks j)

def mappedAt (region : Bool) (ptr : Nat) : Option Nat := if region then some ptr else none

section
variable {place sender : Place} {region : Bool} {cuts : List Nat} {byte value : UInt8} {ptr lbuf bufsize moved : Nat} {act : Act}
  {earlier : List Act}

theorem demands_touch (o : Nat) : Demands (some ptr) act (.region o) ↔ touches .receiver ptr o act := by
  cases act with
  | memcpy dst src len =>
      constructor
      · rintro ⟨_,same,bounds⟩
        cases same
        exact bounds
      · exact fun bounds => ⟨ptr,rfl,bounds⟩
  | _ => exact Iff.rfl

theorem meets_touch (o : Nat) : Meets lbuf bufsize value (some ptr) act (.region o) ↔ touches .sender ptr o act := by
  cases act with
  | memcpy dst src len =>
      constructor
      · rintro ⟨_,same,bounds⟩
        cases same
        exact bounds
      · exact fun bounds => ⟨ptr,rfl,bounds⟩
  | _ => exact Iff.rfl

theorem touch_local {role : Role} {o : Nat} (touch : touches role ptr o act) : callKind act = none := by
  cases act with
  | memcpy => rfl
  | _ => cases touch

theorem copies_rely {pieces : List IoVec} (member : act ∈ (copies .receiver ptr moved pieces).map ofCopy) (mapped : Option Nat) :
    ¬ Demands mapped act .buffer := by
  obtain ⟨_,_,rfl⟩ := List.mem_map.mp member
  exact id

theorem round_supplied {ours roots : List IoVec} (same : total ours = total roots) (recvPtr sendPtr moved : Nat) :
    Supplied callKind (Demands (some recvPtr)) (Meets lbuf bufsize value (some sendPtr)) earlier
      (roundActs .receiver recvPtr moved ours) (roundActs .sender sendPtr moved roots) := by
  intro e t cell located demand
  cases cell with
  | buffer =>
      exfalso
      simp only [roundActs,entry,exit,List.append_nil,List.singleton_append] at located
      rcases List.mem_cons.mp (located_mem located) with rfl | copied
      · exact demand
      · exact copies_rely copied _ demand
  | region o =>
      have touch := (demands_touch o).mp demand
      obtain ⟨range,rfl⟩ := (roundActs_touch .receiver recvPtr moved o t ours).mp ⟨e,touch,located⟩
      obtain ⟨f,wrote,placed⟩ := (roundActs_touch .sender sendPtr moved o 0 roots).mpr ⟨by rw [← same]; exact range,rfl⟩
      refine ⟨0,rfl,?_,f,touch_local wrote,(meets_touch o).mpr wrote,.inr ⟨0,placed,Nat.le_refl 0⟩⟩
      rw [roundActs_kinds]
      rfl

theorem rounds_supplied {ours roots : List (List IoVec)} (same : ours.map total = roots.map total) (recvPtr sendPtr moved : Nat)
    (earlier : List Act) : Supplied callKind (Demands (some recvPtr)) (Meets lbuf bufsize value (some sendPtr)) earlier
      (roundsActs .receiver recvPtr moved ours) (roundsActs .sender sendPtr moved roots) := by
  induction ours generalizing roots moved earlier with
  | nil => exact supplied_none fun _ member => absurd member List.not_mem_nil
  | cons pieces rest ih =>
      cases roots with
      | nil => cases same
      | cons others more =>
          simp only [List.map_cons,List.cons.injEq] at same
          rw [roundsActs,roundsActs,same.1]
          refine supplied_append (round_supplied same.1 recvPtr sendPtr moved) (ih same.2 _ _) ?_
          rw [roundActs_kinds,roundActs_kinds]

-- Everything that a receiver writes in an iteration covers its buffer.
theorem fetches_written {source : Nat} {got : List Act} (fetches : Fetches lbuf ptr source bufsize region got)
    (apart : region = true → Apart lbuf ptr bufsize) {k : Nat} (inside : k < bufsize) : ∃ act ∈ got, Written act (lbuf + k) := by
  apply Classical.byContradiction
  intro nothing
  have kept : ∀ peer m, effects peer got m (lbuf + k) = m (lbuf + k) := by
    intro peer
    have each : ∀ act ∈ got, ¬ Written act (lbuf + k) := fun act member wrote => nothing ⟨act,member,wrote⟩
    clear fetches nothing
    induction got with
    | nil => exact fun _ => rfl
    | cons act rest ih =>
        intro m
        rw [effects_cons,ih (fun other member => each other (List.mem_cons_of_mem _ member)),effect_outside _ _ (each act (by simp))]
  -- Memories that differ exactly in the byte.
  have one := fetches (fun _ => 0) (fun a => if a = lbuf + k then 1 else 0) k inside
  rw [kept,if_pos rfl] at one
  cases region with
  | false => cases one
  | true =>
      have elsewhere : ptr + k ≠ lbuf + k := by rcases apart rfl with below | above <;> omega
      rw [if_pos rfl,if_neg elsewhere] at one
      cases one

-- The calls of an iteration: its Bcasts, the last of them right in front of the FIN.
def iterationKinds (region : Bool) (cuts : List Nat) : List Kind :=
  List.replicate (if region then cuts.length else 1) .bcast ++ [.gather]

theorem iterates_kinds {block : List Act} (iterates : Iterates place region cuts block) : kinds callKind block = iterationKinds region cuts := by
  cases region with
  | true =>
      obtain ⟨rounds,rfl,same⟩ := iterates.chunked rfl
      rw [kinds_append,roundsActs_kinds,iterationKinds,if_pos rfl,← same,List.length_map]
      rfl
  | false =>
      obtain ⟨rts,trail,rfl,bcast,quiet,_⟩ := iterates.window rfl
      rw [kinds_call bcast,kinds_append,kinds_local fun act member => (quiet act member).1]
      rfl

theorem chunked_acts {rounds : List (List IoVec)} (member : act ∈ roundsActs place.role ptr 0 rounds ++ [.gather]) :
    act = .bcast .dummy 1 ∨ act = .gather ∨ ∃ dst src len, act = .memcpy dst src len := by
  rcases List.mem_append.mp member with moved | fin
  · rcases roundsActs_mem moved with rts | copied
    · exact .inl rts
    · obtain ⟨copy,_,rfl⟩ := List.mem_map.mp copied
      exact .inr (.inr ⟨_,_,_,rfl⟩)
  · exact .inr (.inl (List.mem_singleton.mp fin))

theorem iterates_supplied {own root : List Act} (some_cut : region = true → cuts ≠ []) (receives : place.role = .receiver)
    (sends : sender.role = .sender) (ours : Iterates place region cuts own) (roots : Iterates sender region cuts root)
    (set : .memset lbuf value bufsize ∈ earlier) :
    Supplied callKind (Demands (mappedAt region place.ptr)) (Meets lbuf bufsize value (mappedAt region sender.ptr)) earlier own root := by
  have met : ∀ mapped, Meets lbuf bufsize value mapped (.memset lbuf value bufsize) .buffer := fun _ => ⟨rfl,rfl,rfl⟩
  cases region with
  | true =>
      obtain ⟨rounds,rfl,same⟩ := ours.chunked rfl
      obtain ⟨others,rfl,equal⟩ := roots.chunked rfl
      obtain ⟨count,nonempty⟩ : ∃ count, rounds.length = count + 1 := by
        cases rounds with
        | nil => exact absurd same.symm (some_cut rfl)
        | cons head rest => exact ⟨rest.length,rfl⟩
      have ends : kinds callKind (roundsActs .receiver place.ptr 0 rounds) = List.replicate count .bcast ++ [.bcast] := by
        rw [roundsActs_kinds,nonempty,List.replicate_succ']
      rw [receives,sends]
      refine supplied_last (rounds_supplied (same.trans equal.symm) place.ptr sender.ptr 0 earlier) ends set rfl (fun cell demand => ?_) _
      cases cell with
      | buffer => exact met _
      | region o => exact absurd demand id
  | false =>
      obtain ⟨rts,trail,rfl,bcast,quiet,_⟩ := ours.window rfl
      have silent : ∀ mapped cell, ¬ Demands mapped rts cell := by
        intro mapped cell demand
        cases rts with
        | bcast => exact demand
        | _ => cases bcast
      rw [← List.cons_append]
      have windowed : Supplied callKind (Demands (mappedAt false place.ptr)) (Meets lbuf bufsize value (mappedAt false sender.ptr)) earlier
          (rts :: trail) [] := by
        refine supplied_window bcast (silent _) (fun act member => (quiet act member).1) set rfl (fun act member cell demand => ?_) _
        cases cell with
        | buffer => exact met _
        | region o =>
            exfalso
            cases act with
            | memcpy dst src len => exact (quiet _ member).2 dst src len rfl
            | _ => exact demand
      have ends : kinds callKind (rts :: trail) = [] ++ [.bcast] := by
        rw [kinds_call bcast,kinds_local fun act member => (quiet act member).1]
        rfl
      refine supplied_last windowed ends set rfl (fun cell demand => ?_) root
      cases cell with
      | buffer => exact met _
      | region o => exact absurd demand id

theorem iterates_sends {block : List Act} (sends : place.role = .sender) (iterates : Iterates place region cuts block) (member : act ∈ block) :
    SenderAct place.lbuf place.bufsize value (mappedAt region place.ptr) act := by
  have inside := iterates.serves.inside act member
  cases region with
  | true =>
      obtain ⟨rounds,rfl,_⟩ := iterates.chunked rfl
      rcases chunked_acts member with rfl | rfl | ⟨dst,src,len,rfl⟩
      · trivial
      · trivial
      · simp only [InBounds,sends] at inside
        exact ⟨place.ptr,rfl,inside.1,inside.2⟩
  | false =>
      obtain ⟨rts,trail,rfl,bcast,_,alone⟩ := iterates.window rfl
      rw [alone sends] at member
      rcases List.mem_cons.mp member with rfl | fin
      · cases act with
        | bcast => trivial
        | gather => trivial
        | barrier => trivial
        | _ => cases bcast
      · rw [List.mem_singleton.mp fin]
        trivial

theorem iterates_receives {block : List Act} (receives : place.role = .receiver) (iterates : Iterates place region cuts block)
    (member : act ∈ block) : ReceiverAct place.lbuf place.source place.bufsize (mappedAt region place.ptr) act := by
  have inside := iterates.serves.inside act member
  have keeps := iterates.keeps act member
  cases act with
  | memset dst byte len => exact absurd trivial keeps
  | memcpy dst src len =>
      simp only [InBounds,receives] at inside
      cases region with
      | true => exact ⟨place.ptr,rfl,inside.1,inside.2⟩
      | false =>
          exfalso
          obtain ⟨rts,trail,rfl,bcast,quiet,_⟩ := iterates.window rfl
          rcases List.mem_cons.mp member with rfl | later
          · cases bcast
          · rcases List.mem_append.mp later with copy | fin
            · exact (quiet _ copy).2 dst src len rfl
            · cases List.mem_singleton.mp fin
  | memcpySegment dst segment off len =>
      obtain ⟨within,a,mapped,_,_,source⟩ := inside
      exact ⟨within,a,mapped,source⟩
  | processVmReadv liov riov off count bytes => exact inside.2
  | _ => trivial

theorem iterates_collected {block : List Act} (receives : place.role = .receiver) (apart : Apart place.lbuf place.ptr place.bufsize)
    (iterates : Iterates place region cuts block) :
    Collected (fun act => act = .gather) Wipes (fun act (k : Fin place.bufsize) => Written act (place.lbuf + k)) block := by
  obtain ⟨body,rfl,unmarked⟩ : ∃ body, block = body ++ [.gather] ∧ ∀ act ∈ body, act ≠ .gather := by
    cases region with
    | true =>
        obtain ⟨rounds,rfl,_⟩ := iterates.chunked rfl
        refine ⟨_,rfl,fun act member => ?_⟩
        rcases roundsActs_mem member with rfl | copied
        · exact nofun
        · obtain ⟨_,_,rfl⟩ := List.mem_map.mp copied
          exact nofun
    | false =>
        obtain ⟨rts,trail,rfl,bcast,quiet,_⟩ := iterates.window rfl
        refine ⟨rts :: trail,rfl,fun act member => ?_⟩
        rcases List.mem_cons.mp member with rfl | inside
        · rintro rfl
          cases bcast
        · rintro rfl
          cases (quiet _ inside).1
  refine collected_last unmarked (fun act member => iterates.keeps act (List.mem_append_left _ member)) (fun k => ?_) _
  obtain ⟨act,member,written⟩ := fetches_written (iterates.serves.fetches receives) (fun _ => apart) k.isLt
  rcases List.mem_append.mp member with early | last
  · exact ⟨act,early,written⟩
  · rw [List.mem_singleton.mp last] at written
    cases written

end

section
variable {place sender : Place} {region : Bool} {cuts : List Nat} {byte value : UInt8} {opening closing : List Kind} {iters : Nat}
  {acts roots : List Stamped}

theorem idle_sends {act : Act} (idle : Idle act) (lbuf bufsize : Nat) (value : UInt8) (mapped : Option Nat) :
    SenderAct lbuf bufsize value mapped act := by
  cases act with
  | bcast => trivial
  | barrier => trivial
  | xpmemRelease => trivial
  | free => trivial
  | _ => cases idle

theorem idle_receives {act : Act} (idle : Idle act) (lbuf source bufsize : Nat) (mapped : Option Nat) :
    ReceiverAct lbuf source bufsize mapped act := by
  cases act with
  | bcast => trivial
  | barrier => trivial
  | xpmemRelease => trivial
  | free => trivial
  | _ => cases idle

theorem idle_relies {act : Act} (idle : Idle act) (mapped : Option Nat) (cell : Cell) : ¬ Demands mapped act cell := by
  cases act with
  | bcast => exact id
  | barrier => exact id
  | xpmemRelease => exact id
  | free => exact id
  | _ => cases idle

-- An event of a benchmark is one around the loop or one of an iteration.
theorem formed_cases {front back : List Stamped} {blocks : Nat → List Act}
    {event : Stamped} (member : event ∈ front ++ (stampBlocks iters blocks ++ back)) :
    event ∈ front ++ back ∨ ∃ j < iters, event.2 ∈ blocks j := by
  rcases List.mem_append.mp member with before | later
  · exact .inl (List.mem_append_left _ before)
  · rcases List.mem_append.mp later with inside | behind
    · obtain ⟨j,below,_,issued⟩ := stampBlocks_mem inside
      exact .inr ⟨j,below,issued⟩
    · exact .inl (List.mem_append_right _ behind)

theorem formed_sends (sends : place.role = .sender) (formed : Formed place region cuts value opening closing iters acts) :
    ∀ event ∈ acts, SenderAct place.lbuf place.bufsize value (mappedAt region place.ptr) event.2 := by
  intro event member
  obtain ⟨front,back,blocks,rfl,_,_,_,around,each⟩ := formed.split
  rcases formed_cases member with outside | ⟨j,below,issued⟩
  · rcases around event outside with set | idle
    · rw [set]
      exact ⟨rfl,rfl,rfl⟩
    · exact idle_sends idle _ _ _ _
  · exact iterates_sends sends (each j below) issued

theorem formed_receives (receives : place.role = .receiver) (formed : Formed place region cuts byte opening closing iters acts) :
    ∀ event ∈ acts, ReceiverAct place.lbuf place.source place.bufsize (mappedAt region place.ptr) event.2 := by
  intro event member
  obtain ⟨front,back,blocks,rfl,_,_,_,around,each⟩ := formed.split
  rcases formed_cases member with outside | ⟨j,below,issued⟩
  · rcases around event outside with set | idle
    · rw [set]
      exact fun _ low => ⟨Nat.le_add_right _ _,Nat.add_lt_add_left low _⟩
    · exact idle_receives idle _ _ _ _
  · exact iterates_receives receives (each j below) issued

theorem formed_primed (formed : Formed place region cuts value opening closing iters acts) :
    Collected (fun event : Stamped => ∃ dst src len, event.2 = .memcpy dst src len) (fun _ => False)
      (fun event (_ : Unit) => Meets place.lbuf place.bufsize value (mappedAt region place.ptr) event.2 .buffer) acts := by
  obtain ⟨front,back,blocks,rfl,_,_,⟨stamp,set⟩,around,_⟩ := formed.split
  refine collected_behind ?_ (fun _ => id) (fun _ => ⟨_,set,rfl,rfl,rfl⟩) _
  rintro event member ⟨dst,src,len,copy⟩
  rcases around event (List.mem_append_left _ member) with same | idle
  · rw [copy] at same
    cases same
  · rw [copy] at idle
    exact idle

-- A receiver has its whole buffer written in front of every FIN.
theorem formed_collected (receives : place.role = .receiver) (apart : Apart place.lbuf place.ptr place.bufsize)
    (formed : Formed place region cuts byte opening closing iters acts) :
    Collected (fun event : Stamped => event.2 = .gather) (fun event => Wipes event.2)
      (fun event (k : Fin place.bufsize) => Written event.2 (place.lbuf + k)) acts := by
  obtain ⟨front,back,blocks,rfl,_,_,_,around,each⟩ := formed.split
  have outside : ∀ event ∈ front ++ back, event.2 ≠ .gather := by
    intro event member fin
    rcases around event member with set | idle
    · rw [fin] at set
      cases set
    · rw [fin] at idle
      exact idle
  refine collected_append (collected_none fun event member => outside event (List.mem_append_left _ member)) (collected_append ?_
    (collected_none fun event member => outside event (List.mem_append_right _ member)))
  refine flatMap_closed (collected_none fun _ member => absurd member List.not_mem_nil) (fun _ _ left right => collected_append left right) ?_
  exact fun j member => collected_map _ (iterates_collected receives apart (each j (List.mem_range.mp member)))

theorem stamped_kinds (j : Nat) (block : List Act) : kinds stampedKind (block.map (Prod.mk (some j))) = kinds callKind block := by
  rw [kinds,kinds,List.filterMap_map]
  rfl

theorem formed_kinds (formed : Formed place region cuts byte opening closing iters acts) :
    kinds stampedKind acts = opening ++ ((List.range iters).flatMap (fun _ => iterationKinds region cuts) ++ closing) := by
  obtain ⟨front,back,blocks,rfl,ahead,behind,_,_,each⟩ := formed.split
  rw [kinds_append,kinds_append,ahead,behind,stampBlocks,kinds_flatMap]
  refine congrArg (fun calls => opening ++ (calls ++ closing)) (List.flatMap_congr fun j member => ?_)
  rw [stamped_kinds]
  exact iterates_kinds (each j (List.mem_range.mp member))

-- What a receiver reads in a call has been provided by the sender in that call.
theorem formed_supplied (some_cut : region = true → cuts ≠ []) (receives : place.role = .receiver) (sends : sender.role = .sender)
    (ours : Formed place region cuts byte opening closing iters acts) (others : Formed sender region cuts value opening closing iters roots) :
    Supplied stampedKind (fun event => Demands (mappedAt region place.ptr) event.2)
      (fun event => Meets sender.lbuf sender.bufsize value (mappedAt region sender.ptr) event.2) [] acts roots := by
  obtain ⟨front,back,blocks,rfl,ahead,behind,_,around,each⟩ := ours.split
  obtain ⟨lead,tail,rounds,rfl,before,after,⟨stamp,set⟩,_,every⟩ := others.split
  have quiet : ∀ event ∈ front ++ back, ∀ cell, ¬ Demands (mappedAt region place.ptr) event.2 cell := by
    intro event member cell
    rcases around event member with wiped | idle
    · rw [wiped]
      exact id
    · exact idle_relies idle _ _
  have passes : Supplied stampedKind (fun event => Demands (mappedAt region place.ptr) event.2)
      (fun event => Meets sender.lbuf sender.bufsize value (mappedAt region sender.ptr) event.2) lead (stampBlocks iters blocks)
      (stampBlocks iters rounds) ∧ (kinds stampedKind (stampBlocks iters blocks)).length = (kinds stampedKind (stampBlocks iters rounds)).length := by
    refine supplied_flatMap fun j member => ?_
    have below := List.mem_range.mp member
    refine ⟨?_,by rw [stamped_kinds,stamped_kinds,iterates_kinds (each j below),iterates_kinds (every j below)]⟩
    refine supplied_map (Prod.mk (some j))
      (iterates_supplied some_cut receives sends (each j below) (every j below) (List.mem_singleton_self _)) ?_
    rintro act inside cell met
    obtain rfl := List.mem_singleton.mp inside
    exact ⟨_,set,rfl,met⟩
  refine supplied_append (supplied_none fun event member => quiet event (List.mem_append_left _ member)) ?_ (by rw [ahead,before])
  refine supplied_append passes.1 (supplied_none fun event member => quiet event (List.mem_append_right _ member)) passes.2

end
end MpidtBench.SharedRounds
