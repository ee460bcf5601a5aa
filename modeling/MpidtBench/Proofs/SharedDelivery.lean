import MpidtBench.Model.World
import MpidtBench.Proofs.Delivery

namespace MpidtBench.SharedDelivery
open Traced CInteger ScatterGather ByteMemory Collective MpidtBench Delivery

-- What a receiver reads: the sender's buffer, or a byte of the file.
inductive Cell where
  | buffer
  | region (o : Nat)

def Wipes : Act → Prop
  | .memset _ _ _ => True
  | _ => False

def Written : Act → Nat → Prop
  | .memset ptr _ len,a => ptr ≤ a ∧ a < ptr + len
  | .memcpy dst _ len,a => dst ≤ a ∧ a < dst + len
  | .memcpySegment dst (.mapped _) _ len,a => dst ≤ a ∧ a < dst + len
  | .processVmReadv liov riov off count bytes,a => a ∈ (readvMoves liov riov off count bytes).map Prod.fst
  | _,_ => False

-- The cells that a receiver's action relies on, a FIN on the whole buffer, and those that one
-- of the sender provides.
def Demands (mapped : Option Nat) : Act → Cell → Prop
  | .memcpy _ src len,.region o => ∃ ptr, mapped = some ptr ∧ src ≤ ptr + o ∧ ptr + o < src + len
  | .memcpySegment _ _ _ _,.buffer => True
  | .processVmReadv _ _ _ _ _,.buffer => True
  | .gather,.buffer => True
  | _,_ => False
def Meets (lbuf bufsize : Nat) (value : UInt8) (mapped : Option Nat) : Act → Cell → Prop
  | .memset ptr byte len,.buffer => ptr = lbuf ∧ byte = value ∧ len = bufsize
  | .memcpy dst _ len,.region o => ∃ ptr, mapped = some ptr ∧ dst ≤ ptr + o ∧ ptr + o < dst + len
  | _,_ => False

-- The sender sets its buffer to one value and copies from there into the region, a receiver
-- writes its own buffer, from the region or from the sender's memory.
def SenderAct (lbuf bufsize : Nat) (value : UInt8) (mapped : Option Nat) : Act → Prop
  | .memset ptr byte len => ptr = lbuf ∧ byte = value ∧ len = bufsize
  | .memcpy dst src len => ∃ ptr, mapped = some ptr ∧ Within dst len ptr bufsize ∧ Within src len lbuf bufsize
  | .memcpySegment _ _ _ _ => False
  | .processVmReadv _ _ _ _ _ => False
  | _ => True
def ReceiverAct (lbuf source bufsize : Nat) (mapped : Option Nat) : Act → Prop
  | .memset ptr _ len => Within ptr len lbuf bufsize
  | .memcpy dst src len => ∃ ptr, mapped = some ptr ∧ Within dst len lbuf bufsize ∧ Within src len ptr bufsize
  | .memcpySegment dst segment off len => Within dst len lbuf bufsize ∧ ∃ a, segment = .mapped a ∧
    Within (advance a.offset off) len source bufsize
  | .processVmReadv liov riov off count _ => (∀ v ∈ slice liov off count, Within v.iovBase v.iovLen lbuf bufsize) ∧
    ∀ v ∈ slice riov off count, Within v.iovBase v.iovLen source bufsize
  | _ => True

section
variable {lbuf source bufsize ptr a : Nat} {value : UInt8} {mapped : Option Nat} {act : Act} {peer m : Memory}

theorem effect_outside (peer m : Memory) (outside : ¬ Written act a) : effect peer m act a = m a := by
  cases act with
  | memset ptr value len => exact if_neg outside
  | memcpy dst src len => exact if_neg outside
  | memcpySegment dst segment off len =>
      cases segment with
      | mapped segment => exact if_neg outside
      | _ => rfl
  | processVmReadv liov riov off count bytes => exact transfer_outside peer outside
  | _ => rfl

theorem within_inside (within : Within ptr len lbuf bufsize) (inside : ptr ≤ a ∧ a < ptr + len) : ∃ k < bufsize, a = lbuf + k := by
  have bounds := within (a - ptr) (by omega)
  exact ⟨a - lbuf,by omega,by omega⟩

theorem blocks_inside {blocks : List IoVec} (within : ∀ v ∈ blocks, Within v.iovBase v.iovLen lbuf bufsize) (member : a ∈ addrs blocks) :
    ∃ k < bufsize, a = lbuf + k := by
  obtain ⟨v,listed,inside⟩ := List.mem_flatMap.mp member
  exact within_inside (within v listed) (List.mem_range'_1.mp inside)

theorem moves_inside {liov riov : List IoVec} {off count : Int} {bytes : Nat} {move : Nat × Nat}
    (member : move ∈ readvMoves liov riov off count bytes) :
    move.1 ∈ addrs (slice liov off count) ∧ move.2 ∈ addrs (slice riov off count) := by
  unfold readvMoves at member
  split at member
  · cases member
  · exact ⟨(List.of_mem_zip (List.mem_of_mem_take member)).1,(List.of_mem_zip (List.mem_of_mem_take member)).2⟩

theorem receiver_written (receives : ReceiverAct lbuf source bufsize mapped act) (written : Written act a) : ∃ k < bufsize, a = lbuf + k := by
  cases act with
  | memset dst byte len => exact within_inside receives written
  | memcpy dst src len =>
      obtain ⟨_,_,within,_⟩ := receives
      exact within_inside within written
  | memcpySegment dst segment off len =>
      obtain ⟨within,_,rfl,_⟩ := receives
      exact within_inside within written
  | processVmReadv liov riov off count bytes =>
      obtain ⟨move,member,rfl⟩ := List.mem_map.mp written
      exact blocks_inside receives.1 (moves_inside member).1
  | _ => cases written

theorem receiver_fetches (receives : ReceiverAct lbuf source bufsize mapped act) (keeps : ¬ Wipes act) (written : Written act a)
    (remote : Demands mapped act .buffer → ∀ k < bufsize, peer (source + k) = value)
    (region : ∀ ptr, mapped = some ptr → ∀ o < bufsize, Demands mapped act (.region o) → m (ptr + o) = value) :
    effect peer m act a = value := by
  cases act with
  | memset dst byte len => exact absurd trivial keeps
  | memcpy dst src len =>
      obtain ⟨ptr,there,_,within⟩ := receives
      have bounds : dst ≤ a ∧ a < dst + len := written
      have copied : src ≤ src + (a - dst) ∧ src + (a - dst) < src + len := by omega
      obtain ⟨o,inside,same⟩ := within_inside within copied
      rw [same] at copied
      rw [effect,copyInto,if_pos bounds,same]
      exact region ptr there o inside ⟨ptr,there,copied⟩
  | memcpySegment dst segment off len =>
      obtain ⟨_,segment,rfl,within⟩ := receives
      have bounds : dst ≤ a ∧ a < dst + len := written
      obtain ⟨k,inside,same⟩ := within_inside (a := advance segment.offset off + (a - dst)) within (by omega)
      rw [effect,copyInto,if_pos bounds,same]
      exact remote trivial k inside
  | processVmReadv liov riov off count bytes =>
      obtain ⟨move,member,moved⟩ := transfer_source peer (m := m) written
      obtain ⟨k,inside,same⟩ := blocks_inside receives.2 (moves_inside member).2
      rw [effect,moved,same]
      exact remote trivial k inside
  | _ => cases written

-- The sender keeps its buffer at the value, and writes nothing else into the region.
theorem sender_buffer (sends : SenderAct lbuf bufsize value mapped act) (apart : ∀ ptr, mapped = some ptr → Apart lbuf ptr bufsize)
    (inside : k < bufsize) (shown : Meets lbuf bufsize value mapped act .buffer ∨ m (lbuf + k) = value) :
    effect peer m act (lbuf + k) = value := by
  cases act with
  | memset dst byte len =>
      obtain ⟨rfl,rfl,rfl⟩ := sends
      exact if_pos (by omega)
  | memcpy dst src len =>
      obtain ⟨ptr,there,within,_⟩ := sends
      have clear := apart ptr there
      have untouched : ¬ Written (.memcpy dst src len) (lbuf + k) := by
        intro written
        obtain ⟨o,low,same⟩ := within_inside within written
        rcases clear with below | above <;> omega
      rw [effect_outside peer m untouched]
      exact shown.resolve_left fun met => met
  | memcpySegment => exact absurd sends id
  | processVmReadv => exact absurd sends id
  | _ => exact shown.resolve_left fun met => met

theorem sender_region (sends : SenderAct lbuf bufsize value (some ptr) act) (apart : Apart lbuf ptr bufsize) (inside : o < bufsize)
    (buffer : (∃ dst src len, act = .memcpy dst src len) → ∀ k < bufsize, m (lbuf + k) = value)
    (shown : Meets lbuf bufsize value (some ptr) act (.region o) ∨ m (ptr + o) = value) : effect peer m act (ptr + o) = value := by
  by_cases written : Written act (ptr + o)
  · cases act with
    | memset dst byte len =>
        obtain ⟨rfl,rfl,rfl⟩ := sends
        have bounds : dst ≤ ptr + o ∧ ptr + o < dst + len := written
        rcases apart with below | above <;> omega
    | memcpy dst src len =>
        obtain ⟨_,_,_,within⟩ := sends
        have bounds : dst ≤ ptr + o ∧ ptr + o < dst + len := written
        obtain ⟨k,low,same⟩ := within_inside (a := src + (ptr + o - dst)) within (by omega)
        rw [effect,copyInto,if_pos bounds,same]
        exact buffer ⟨dst,src,len,rfl⟩ k low
    | memcpySegment => exact absurd sends id
    | processVmReadv => exact absurd sends id
    | _ => cases written
  · rw [effect_outside peer m written]
    refine shown.resolve_left fun met => written ?_
    cases act with
    | memcpy dst src len =>
        obtain ⟨_,same,bounds⟩ := met
        cases same
        exact bounds
    | _ => exact absurd met id

end

-- Programs of which some share a buffer this way: what they do, that the sender sets its buffer
-- before it copies from it, and that a receiver reads only behind a Bcast what was provided in
-- front. The other ranks do what they like, but map no region.
structure Sharing (sys : System ρ α) (act : α → Act) (mapped : ρ → α → Option Nat) (joins : ρ → Prop) (lbuf : ρ → Nat) (bufsize : Nat)
    (value : UInt8) : Prop where
  kinds : ∀ e, sys.kind e = callKind (act e)
  rooted : joins sys.root
  strangers : ∀ r, ¬ joins r → ∀ e ∈ sys.acts r, mapped r e = none
  uniform : ∀ r, joins r → sys.schedule r = sys.schedule sys.root
  apart : ∀ r, joins r → ∀ e ∈ sys.acts r, ∀ ptr, mapped r e = some ptr → Apart (lbuf r) ptr bufsize
  sends : ∀ e ∈ sys.acts sys.root, SenderAct (lbuf sys.root) bufsize value (mapped sys.root e) (act e)
  receives : ∀ r ≠ sys.root, joins r → ∀ e ∈ sys.acts r, ReceiverAct (lbuf r) (lbuf sys.root) bufsize (mapped r e) (act e)
  primed : Collected (fun e => ∃ dst src len, act e = .memcpy dst src len) (fun _ => False)
    (fun e (_ : Unit) => Meets (lbuf sys.root) bufsize value (mapped sys.root e) (act e) .buffer) (sys.acts sys.root)
  supplied : ∀ r ≠ sys.root, joins r → Supplied sys.kind (fun e => Demands (mapped r e) (act e))
    (fun e => Meets (lbuf sys.root) bufsize value (mapped sys.root e) (act e)) [] (sys.acts r) (sys.acts sys.root)

def shared [DecidableEq ρ] (sys : System ρ α) (act : α → Act) (mapped : ρ → α → Option Nat) (bufsize : Nat) (r : ρ) (e : α)
    (w : World ρ) : World ρ := w.step sys.root bufsize (mapped r e) r (act e)

section
variable {sys : System ρ α} {act : α → Act} {mapped : ρ → α → Option Nat} {joins : ρ → Prop} {lbuf : ρ → Nat} {bufsize : Nat} {value : UInt8}

def Shows (sys : System ρ α) (lbuf : ρ → Nat) (bufsize : Nat) (value : UInt8) (w : World ρ) : Cell → Prop
  | .buffer => ∀ k < bufsize, w.memory sys.root (lbuf sys.root + k) = value
  | .region o => o < bufsize → w.region o = value

-- What the sender has provided is there, and what a receiver has fetched since it last
-- wiped its buffer.
structure Holds (sys : System ρ α) (act : α → Act) (mapped : ρ → α → Option Nat) (joins : ρ → Prop) (lbuf : ρ → Nat) (bufsize : Nat)
    (value : UInt8) (r : ρ) (done : List α) (w : World ρ) : Prop where
  provided : r = sys.root → ∀ e ∈ done, ∀ cell, Meets (lbuf r) bufsize value (mapped r e) (act e) cell → Shows sys lbuf bufsize value w cell
  fetched : r ≠ sys.root → joins r → ∀ front rest, done = front ++ rest → (∀ e ∈ rest, ¬ Wipes (act e)) → ∀ k < bufsize,
    (∃ e ∈ rest, Written (act e) (lbuf r + k)) → w.memory r (lbuf r + k) = value

theorem call_meets {a : Act} {k : Kind} (call : callKind a = some k) (lbuf bufsize : Nat) (value : UInt8) (mapped : Option Nat) (cell : Cell) :
    ¬ Meets lbuf bufsize value mapped a cell := by
  cases a with
  | memset => cases call
  | memcpy => cases call
  | _ => exact id

theorem call_writes {a : Act} {k : Kind} (call : callKind a = some k) (address : Nat) : ¬ Written a address := by
  cases a with
  | bcast => exact id
  | gather => exact id
  | barrier => exact id
  | _ => cases call

theorem split_last {done front rest : List α} {a : α} (split : done ++ [a] = front ++ rest) :
    rest = [] ∨ ∃ before, rest = before ++ [a] ∧ done = front ++ before := by
  rcases List.eq_nil_or_concat rest with rfl | ⟨before,last,rfl⟩
  · exact .inl rfl
  · rw [List.concat_eq_append,← List.append_assoc] at split
    obtain ⟨same,equal⟩ := List.append_inj' split rfl
    cases equal
    exact .inr ⟨before,List.concat_eq_append,same⟩

theorem cons_last {done front rest : List α} {a e : α} (split : done ++ [a] = front ++ e :: rest) :
    (e = a ∧ rest = []) ∨ ∃ before, rest = before ++ [a] ∧ done = front ++ e :: before := by
  rcases split_last split with nothing | ⟨before,tail,early⟩
  · cases nothing
  · cases before with
    | nil =>
        injection tail with same empty
        exact .inl ⟨same,empty⟩
    | cons head before =>
        injection tail with same later
        subst same
        exact .inr ⟨before,later,early⟩

theorem current_acts {cfg : Config ρ} {r : ρ} {e : α} (here : sys.current cfg r = some e) : e ∈ sys.acts r := List.mem_of_getElem? here

variable [DecidableEq ρ] {cfg : Config ρ} {w start : World ρ} {r : ρ} {e : α}

theorem buffer_private (sharing : Sharing sys act mapped joins lbuf bufsize value) (joined : joins r) (here : sys.current cfg r = some e)
    {k : Nat} (inside : k < bufsize) :
    w.view bufsize (mapped r e) r (lbuf r + k) = w.memory r (lbuf r + k) ∧
      (shared sys act mapped bufsize r e w).memory r (lbuf r + k) =
        effect (w.memory sys.root) (w.view bufsize (mapped r e) r) (act e) (lbuf r + k) := by
  have outside : regionOffset bufsize (mapped r e) (lbuf r + k) = none := by
    apply regionOffset_none
    intro ptr there
    rcases sharing.apart r joined e (current_acts here) ptr there with below | above
    · exact .inl (by omega)
    · exact .inr (by omega)
  exact ⟨view_private outside,store_private outside⟩

theorem root_shows (sharing : Sharing sys act mapped joins lbuf bufsize value) (here : sys.current cfg sys.root = some e)
    (holds : Holds sys act mapped joins lbuf bufsize value sys.root (sys.finished cfg sys.root) w) {cell : Cell}
    (shown : Meets (lbuf sys.root) bufsize value (mapped sys.root e) (act e) cell ∨ Shows sys lbuf bufsize value w cell) :
    Shows sys lbuf bufsize value (shared sys act mapped bufsize sys.root e w) cell := by
  have member := current_acts here
  have sends := sharing.sends e member
  cases cell with
  | buffer =>
      intro k inside
      obtain ⟨seen,stored⟩ := buffer_private sharing sharing.rooted here (w := w) inside
      rw [stored]
      refine sender_buffer sends (sharing.apart sys.root sharing.rooted e member) inside (shown.imp_right fun all => ?_)
      rw [seen]
      exact all k inside
  | region o =>
      intro inside
      cases there : mapped sys.root e with
      | none =>
          rw [there] at shown
          rcases shown with met | all
          · exfalso
            cases performed : act e with
            | memcpy dst src len =>
                rw [performed] at met
                obtain ⟨_,nowhere,_⟩ := met
                cases nowhere
            | _ => rw [performed] at met; exact met
          · rw [shared,World.step,there,store_unmapped]
            exact all inside
      | some ptr =>
          rw [shared,World.step,there,store_region inside]
          rw [there] at sends shown
          refine sender_region sends (sharing.apart sys.root sharing.rooted e member ptr there) inside ?_ (shown.imp_right fun all => ?_)
          · intro copies k low
            obtain ⟨front,rest,done,_,primed⟩ := System.collected_done sharing.primed here copies
            obtain ⟨first,earlier,set⟩ := primed ()
            have seen := (buffer_private sharing sharing.rooted here (w := w) low).1
            rw [there] at seen
            rw [seen]
            exact holds.provided rfl first (by rw [done]; exact List.mem_append_right _ earlier) .buffer set k low
          · rw [view_region inside]
            exact all inside

theorem receiver_shows (sharing : Sharing sys act mapped joins lbuf bufsize value) (apart : r ≠ sys.root) (here : sys.current cfg r = some e)
    {cell : Cell} (shown : Shows sys lbuf bufsize value w cell) :
    Shows sys lbuf bufsize value (shared sys act mapped bufsize r e w) cell := by
  have member := current_acts here
  cases cell with
  | buffer =>
      intro k inside
      rw [shared,World.step,store_other apart.symm]
      exact shown k inside
  | region o =>
      intro inside
      cases there : mapped r e with
      | none =>
          rw [shared,World.step,there,store_unmapped]
          exact shown inside
      | some ptr =>
          have joined : joins r := by
            by_contra stranger
            cases (sharing.strangers r stranger e member).symm.trans there
          have outside : ¬ Written (act e) (ptr + o) := by
            intro written
            obtain ⟨k,low,same⟩ := receiver_written (sharing.receives r apart joined e member) written
            rcases sharing.apart r joined e member ptr there with below | above <;> omega
          rw [shared,World.step,there,store_region inside,effect_outside _ _ outside,view_region inside]
          exact shown inside

theorem receiver_gets (sharing : Sharing sys act mapped joins lbuf bufsize value) (reach : sys.Reached cfg) (apart : r ≠ sys.root)
    (joined : joins r) (here : sys.current cfg r = some e) (keeps : ¬ Wipes (act e))
    (holds : Holds sys act mapped joins lbuf bufsize value sys.root (sys.finished cfg sys.root) w) {k : Nat} (inside : k < bufsize)
    (written : Written (act e) (lbuf r + k)) : (shared sys act mapped bufsize r e w).memory r (lbuf r + k) = value := by
  have provided : ∀ cell, Demands (mapped r e) (act e) cell → Shows sys lbuf bufsize value w cell := by
    intro cell demand
    obtain ⟨f,done,met⟩ := System.supplied_done (System.reached_ordered reach) apart (sharing.uniform r joined)
      (sharing.supplied r apart joined) here demand
    exact holds.provided rfl f done cell met
  rw [(buffer_private sharing joined here inside).2]
  refine receiver_fetches (sharing.receives r apart joined e (current_acts here)) keeps written ?_ ?_
  · exact fun demand => provided .buffer demand
  · intro ptr there o low demand
    rw [there,view_region low]
    exact provided (.region o) demand low

theorem holds_stable (sharing : Sharing sys act mapped joins lbuf bufsize value) :
    Stable sys (shared sys act mapped bufsize) (Holds sys act mapped joins lbuf bufsize value) := by
  have root_apart : ∀ {r q : ρ}, q = sys.root → q ≠ r → r ≠ sys.root := fun same apart root => apart (same.trans root.symm)
  refine ⟨?_,?_,?_,?_⟩
  · intro r w
    refine ⟨fun _ e member => absurd member List.not_mem_nil,fun _ _ front rest split _ k _ written => ?_⟩
    obtain ⟨_,rfl⟩ := List.append_eq_nil_iff.mp split.symm
    obtain ⟨e,member,_⟩ := written
    exact absurd member List.not_mem_nil
  · intro r done c k w call holds
    rw [sharing.kinds] at call
    refine ⟨fun root e member cell met => ?_,fun apart joined front rest split keeps k inside written => ?_⟩
    · rcases List.mem_append.mp member with earlier | last
      · exact holds.provided root e earlier cell met
      · rw [List.mem_singleton.mp last] at met
        exact absurd met (call_meets call _ _ _ _ _)
    · rcases split_last split with rfl | ⟨before,rfl,early⟩
      · obtain ⟨e,member,_⟩ := written
        exact absurd member List.not_mem_nil
      · refine holds.fetched apart joined front before early (fun e member => keeps e (List.mem_append_left _ member)) k inside ?_
        obtain ⟨e,member,wrote⟩ := written
        rcases List.mem_append.mp member with earlier | last
        · exact ⟨e,earlier,wrote⟩
        · rw [List.mem_singleton.mp last] at wrote
          exact absurd wrote (call_writes call _)
  · intro cfg w r a reach here quiet holds
    refine ⟨fun root e member cell met => ?_,fun apart joined front rest split keeps k inside written => ?_⟩
    · subst root
      rcases List.mem_append.mp member with earlier | last
      · exact root_shows sharing here (holds _) (.inr ((holds _).provided rfl e earlier cell met))
      · rw [List.mem_singleton.mp last] at met
        exact root_shows sharing here (holds _) (.inl met)
    · rcases split_last split with rfl | ⟨before,rfl,early⟩
      · obtain ⟨e,member,_⟩ := written
        exact absurd member List.not_mem_nil
      · by_cases now : Written (act a) (lbuf r + k)
        · exact receiver_gets sharing reach apart joined here (keeps a (by simp)) (holds _) inside now
        · obtain ⟨seen,stored⟩ := buffer_private sharing joined here (w := w) inside
          rw [stored,effect_outside _ _ now,seen]
          refine (holds r).fetched apart joined front before early (fun e member => keeps e (List.mem_append_left _ member)) k inside ?_
          obtain ⟨e,member,wrote⟩ := written
          rcases List.mem_append.mp member with earlier | last
          · exact ⟨e,earlier,wrote⟩
          · rw [List.mem_singleton.mp last] at wrote
            exact absurd wrote now
  · intro cfg w r a q other reach here quiet holds
    refine ⟨fun root e member cell met => ?_,fun apart joined front rest split keeps k inside written => ?_⟩
    · exact receiver_shows sharing (root_apart root other) here ((holds q).provided root e member cell met)
    · rw [shared,World.step,store_other other]
      exact (holds q).fetched apart joined front rest split keeps k inside written

-- What a rank has set in its own buffer and not written since is as it was set.
def Kept (act : α → Act) (joins : ρ → Prop) (lbuf : ρ → Nat) (bufsize : Nat) (r : ρ) (done : List α) (w : World ρ) : Prop :=
  joins r → ∀ front e rest ptr byte len, done = front ++ e :: rest → act e = .memset ptr byte len → ∀ k < bufsize,
    ptr ≤ lbuf r + k → lbuf r + k < ptr + len → (∀ f ∈ rest, ¬ Written (act f) (lbuf r + k)) → w.memory r (lbuf r + k) = byte

theorem kept_stable (sharing : Sharing sys act mapped joins lbuf bufsize value) :
    Stable sys (shared sys act mapped bufsize) (Kept act joins lbuf bufsize) := by
  refine ⟨?_,?_,?_,?_⟩
  · intro r w _ front e rest ptr byte len split
    simp at split
  · intro r done c k w call kept joined front e rest ptr byte len split set i inside low high clean
    rcases cons_last split with ⟨rfl,_⟩ | ⟨before,rfl,early⟩
    · rw [sharing.kinds,set] at call
      cases call
    · exact kept joined front e before ptr byte len early set i inside low high fun f member => clean f (List.mem_append_left _ member)
  · intro cfg w r a reach here quiet kept joined front e rest ptr byte len split set i inside low high clean
    obtain ⟨seen,stored⟩ := buffer_private sharing joined here (w := w) inside
    rw [stored]
    rcases cons_last split with ⟨rfl,_⟩ | ⟨before,rfl,early⟩
    · rw [set]
      exact if_pos ⟨low,high⟩
    · rw [effect_outside _ _ (clean a (by simp)),seen]
      exact kept r joined front e before ptr byte len early set i inside low high fun f member => clean f (List.mem_append_left _ member)
  · intro cfg w r a q other reach here quiet kept joined front e rest ptr byte len split set i inside low high clean
    rw [shared,World.step,store_other other]
    exact kept q joined front e rest ptr byte len split set i inside low high clean

-- In every order of steps: a receiver that sends its FIN has the sender's buffer, if its own
-- has been written all over since it was wiped.
theorem shared_delivered (sharing : Sharing sys act mapped joins lbuf bufsize value)
    (collected : ∀ r ≠ sys.root, joins r → Collected (fun e => act e = .gather) (fun e => Wipes (act e))
      (fun e (k : Fin bufsize) => Written (act e) (lbuf r + k)) (sys.acts r))
    (runs : Runs sys (shared sys act mapped bufsize) start cfg w) (apart : r ≠ sys.root) (joined : joins r)
    (here : sys.current cfg r = some e) (fin : act e = .gather) :
    ∀ k < bufsize, w.memory r (lbuf r + k) = value ∧ w.memory sys.root (lbuf sys.root + k) = value := by
  have holds := runs_hold (holds_stable sharing) runs
  have demand : Demands (mapped r e) (act e) .buffer := by rw [fin]; trivial
  obtain ⟨f,done,met⟩ := System.supplied_done (System.reached_ordered (runs_reached runs)) apart (sharing.uniform r joined)
    (sharing.supplied r apart joined) here demand
  obtain ⟨front,rest,split,keeps,all⟩ := System.collected_done (collected r apart joined) here fin
  intro k inside
  exact ⟨(holds r).fetched apart joined front rest split keeps k inside (all ⟨k,inside⟩),
    (holds sys.root).provided rfl f done .buffer met k inside⟩

end
end MpidtBench.SharedDelivery
