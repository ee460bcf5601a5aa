import MpidtBench.Model.TypeTests
import MpidtBench.Proofs.LatencyEcho

namespace MpidtBench.TypeDelivery
open Traced ByteMemory Stored Datatype MpidtBench
open Session (Traded Trade)

def assigns (writes : List (Nat × List UInt8)) : List TypeAct := writes.map fun write => .assign write.1 write.2

def typeScene (sender receiver : Run Fault TypeAct Unit) (s t : TypeState) : Session.Scene TypeAct Envelope (List UInt8) TypeState :=
  .opening sender.acts receiver.acts s t

section
variable {front back acts past rest before behind : List TypeAct} {writes : List (Nat × List UInt8)} {s t : TypeState} {rank buf count dest tag : Nat}
  {datatype : TypeMap} {payload : List UInt8} {a : TypeAct}

theorem replay_assigns (rank : Nat) (expected : Envelope → List UInt8) (writes : List (Nat × List UInt8)) (s : TypeState) :
    (typeConduct rank).replay expected (assigns writes) s = {s with memory := puts writes s.memory} := by
  induction writes generalizing s with
  | nil => rfl
  | cons write rest ih => exact ih {s with memory := put s.memory write.1 write.2}

def Mute (acts : List TypeAct) : Prop := ∀ a ∈ acts, ∀ rank message, typeComm rank a ≠ some (.send message)

theorem assigns_mute (writes : List (Nat × List UInt8)) : Mute (assigns writes) := by
  intro a member rank message
  obtain ⟨write,_,rfl⟩ := List.mem_map.mp member
  intro sends
  cases sends

theorem assigns_comm (writes : List (Nat × List UInt8)) (rank : Nat) : (assigns writes).filterMap (typeComm rank) = [] := by
  rw [List.filterMap_eq_nil_iff]
  intro a member
  obtain ⟨write,_,rfl⟩ := List.mem_map.mp member
  rfl

theorem Mute.append (mute : Mute front) (silent : Mute back) : Mute (front ++ back) := by
  intro a member
  rcases List.mem_append.mp member with here | there
  · exact mute a here
  · exact silent a there

theorem barrier_mute : Mute [.barrier] := by
  intro a member rank message sends
  rw [List.mem_singleton.mp member] at sends
  cases sends

-- The one send of a rank is the action before its last.
theorem only_send (mute : Mute front) (whole : front ++ [.send buf count datatype dest tag,.finalize] = past ++ a :: rest)
    (sends : typeComm rank a = some (.send message)) : past = front ∧ a = .send buf count datatype dest tag := by
  rcases append_split whole with ⟨_,inside,_⟩ | ⟨before,reached,ended⟩
  · exact absurd sends (mute a (by rw [inside]; simp) rank message)
  · cases before with
    | nil =>
        injection ended with same _
        exact ⟨by rw [reached,List.append_nil],same.symm⟩
    | cons first more =>
        injection ended with _ last
        cases more with
        | nil =>
            injection last with same _
            rw [← same] at sends
            cases sends
        | cons second more =>
            injection last with _ nothing
            simp at nothing

-- Two ranks with one message between them: each has done its own part in order, with that message.
theorem one_message (mute : Mute front) (silent : Mute acts)
    (dual : acts.filterMap (typeComm 1) = ((front ++ [TypeAct.send buf count datatype 1 tag,.finalize]).filterMap (typeComm 0)).map Session.Comm.dual)
    (loaded : gather ((typeConduct 0).replay (fun _ => payload) front s).memory (elements buf count datatype) = payload)
    {scene : Session.Scene TypeAct Envelope (List UInt8) TypeState}
    (traded : Traded (typeConduct 0) (typeConduct 1) (.opening (front ++ [.send buf count datatype 1 tag,.finalize]) acts s t) scene) :
    (scene.left.rest = [] → scene.left.state = (typeConduct 0).replay (fun _ => payload) front s) ∧
      (scene.right.rest = [] → scene.right.state = (typeConduct 1).replay (fun _ => payload) acts t) ∧
      (scene.left.rest = [] ∧ scene.right.rest = [] ∨ ∃ next, Trade (typeConduct 0) (typeConduct 1) scene next) := by
  obtain ⟨⟨ours,left⟩,theirs,right⟩ := @Session.traded_replay _ _ _ _ (typeConduct 0) (typeConduct 1) scene _ acts (fun _ => payload) s t dual
    (by
      intro past a rest message whole sends
      obtain ⟨rfl,rfl⟩ := only_send mute whole sends
      exact loaded)
    (by
      intro past a rest message whole sends
      exact absurd sends (silent a (by rw [whole]; simp) 1 message))
    traded
  refine ⟨fun ended => ?_,fun ended => ?_,Session.traded_live dual traded⟩
  · rw [ended,List.append_nil] at ours
    rw [left,← ours,Session.replay_append]
    rfl
  · rw [ended,List.append_nil] at theirs
    rw [right,← theirs]

end

-- The array of a rank that holds `val` in one column and 0 in all others, the rest of its memory being as before.
structure OnlyColumn (x rows cols refcol : Nat) (val : Int) (before m : Memory) : Prop where
  cells : ∀ i < rows, ∀ j < cols, intAt m (x + 4 * (i * cols + j)) = if j = refcol then val else 0
  outside : ∀ a, a < x ∨ x + 4 * (rows * cols) ≤ a → m a = before a

section vector
variable {rows cols i j n : Nat} {x y : Nat} {m : Memory} {val : Int}

-- The assignments of the loop over the whole array, and of the loop over its column 2.
def zeros (x rows cols : Nat) : List (Nat × List UInt8) := (List.range (rows * cols)).map fun n => (x + 4 * n,toBytes 4 0)
def fives (x rows cols : Nat) : List (Nat × List UInt8) := (List.range rows).map fun i => (x + 4 * (i * cols + 2),toBytes 4 5)

-- Row by row, every cell comes once.
theorem cells_flat (f : Nat → β) (rows cols : Nat) :
    ((List.range rows).flatMap fun i => (List.range cols).map fun j => f (i * cols + j)) = (List.range (rows * cols)).map f := by
  have whole := congrArg (List.map f) (range_blocks 0 cols rows)
  rw [List.map_flatMap,← List.range_eq_range'] at whole
  rw [← whole]
  refine List.flatMap_congr fun i _ => ?_
  rw [List.range'_eq_map_range,List.map_map,Nat.zero_add]
  rfl

theorem cells_run (x rows cols : Nat) :
    forRange rows (fun i _ => forRange cols (fun j _ => (Run.emit (.assign (x + 4 * (i * cols + j)) (toBytes 4 0)) : Run Fault TypeAct Unit)) ()) () =
      ⟨assigns (zeros x rows cols),.ok ()⟩ := by
  have row : ∀ i < rows, forRange cols (fun j _ => (Run.emit (.assign (x + 4 * (i * cols + j)) (toBytes 4 0)) : Run Fault TypeAct Unit)) () =
      ⟨(List.range cols).map fun j => .assign (x + 4 * (i * cols + j)) (toBytes 4 0),.ok ()⟩ := by
    intro i _
    have cells := @forRange_exact Unit Fault TypeAct cols
      (fun j _ => Run.emit (.assign (x + 4 * (i * cols + j)) (toBytes 4 0))) (fun j => [.assign (x + 4 * (i * cols + j)) (toBytes 4 0)])
      (fun _ => ()) fun _ _ => rfl
    rw [cells,List.map_eq_flatMap]
  have run := @forRange_exact Unit Fault TypeAct rows _ (fun i => (List.range cols).map fun j => .assign (x + 4 * (i * cols + j)) (toBytes 4 0))
    (fun _ => ()) row
  rw [run,cells_flat fun n => TypeAct.assign (x + 4 * n) (toBytes 4 0),assigns,zeros,List.map_map]
  rfl

theorem column_run (x rows cols : Nat) :
    forRange rows (fun i _ => (Run.emit (.assign (x + 4 * (i * cols + 2)) (toBytes 4 5)) : Run Fault TypeAct Unit)) () =
      ⟨assigns (fives x rows cols),.ok ()⟩ := by
  have run := @forRange_exact Unit Fault TypeAct rows (fun i _ => Run.emit (.assign (x + 4 * (i * cols + 2)) (toBytes 4 5)))
    (fun i => [.assign (x + 4 * (i * cols + 2)) (toBytes 4 5)]) (fun _ => ()) fun _ _ => rfl
  rw [run,assigns,fives,List.map_map,List.map_eq_flatMap]
  rfl

theorem vectorDt_sender (x rows cols : Nat) : vectorDt 0 x rows cols =
    ⟨(assigns (zeros x rows cols) ++ [.barrier] ++ assigns (fives x rows cols)) ++
      [.send (x + 4 * 2) 1 (vector rows 1 cols (basic 4)) 1 52,.finalize],.ok ()⟩ := by
  rw [vectorDt,cells_run,column_run]
  simp

theorem vectorDt_receiver (y rows cols : Nat) : vectorDt 1 y rows cols =
    ⟨assigns (zeros y rows cols) ++ [.barrier,.recv (y + 4 * 3) 1 (vector rows 1 cols (basic 4)) 0 52,.validate y rows cols 3 5,.finalize],.ok ()⟩ := by
  rw [vectorDt,cells_run]
  simp

theorem cell_ne (wide : j < cols) (other : k < cols) (apart : j ≠ k) (i i' : Nat) : i * cols + j ≠ i' * cols + k := by
  intro same
  have column := congrArg (· % cols) same
  simp only [Nat.mul_comm _ cols,Nat.mul_add_mod,Nat.mod_eq_of_lt wide,Nat.mod_eq_of_lt other] at column
  exact apart column

theorem row_ne (some_columns : 0 < cols) (apart : i ≠ i') : i * cols ≠ i' * cols :=
  fun same => apart (Nat.eq_of_mul_eq_mul_right some_columns same)

theorem cell_below (row : i < rows) (column : j < cols) : i * cols + j < rows * cols := by
  have next : (i+1) * cols ≤ rows * cols := Nat.mul_le_mul_right cols row
  rw [Nat.succ_mul] at next
  omega

theorem zeros_cell (below : n < rows * cols) : peek (puts (zeros x rows cols) m) (x + 4 * n) 4 = toBytes 4 0 := by
  refine peek_puts (toBytes_length 4 0) (List.mem_map.mpr ⟨n,List.mem_range.mpr below,rfl⟩) fun write member => ?_
  obtain ⟨k,_,rfl⟩ := List.mem_map.mp member
  by_cases same : k = n
  · exact .inl (by rw [same])
  · rw [toBytes_length]
    omega

theorem fives_cell (row : i < rows) (column : j < cols) (wide : 2 < cols) : peek (puts (fives x rows cols) m) (x + 4 * (i * cols + j)) 4 =
    if j = 2 then toBytes 4 5 else peek m (x + 4 * (i * cols + j)) 4 := by
  by_cases second : j = 2
  · subst second
    rw [if_pos rfl]
    refine peek_puts (toBytes_length 4 5) (List.mem_map.mpr ⟨i,List.mem_range.mpr row,rfl⟩) fun write member => ?_
    obtain ⟨k,_,rfl⟩ := List.mem_map.mp member
    by_cases same : k = i
    · exact .inl (by rw [same])
    · have apart := row_ne (Nat.zero_lt_of_lt column) same
      rw [toBytes_length]
      omega
  · rw [if_neg second]
    refine peek_puts_apart fun write member => ?_
    obtain ⟨k,_,rfl⟩ := List.mem_map.mp member
    have apart := cell_ne column wide second i k
    rw [toBytes_length]
    omega

theorem intAt_bytes {ptr : Nat} (bytes : peek m ptr 4 = toBytes 4 val) (low : -2147483648 ≤ val) (high : val < 2147483648) : intAt m ptr = val := by
  rw [intAt,bytes]
  exact integer_toBytes (by norm_num; omega) (by norm_num; omega)

theorem zeros_outside (outside : a < x ∨ x + 4 * (rows * cols) ≤ a) : puts (zeros x rows cols) m a = m a := by
  refine puts_outside fun write member => ?_
  obtain ⟨n,listed,rfl⟩ := List.mem_map.mp member
  have below := List.mem_range.mp listed
  rw [toBytes_length]
  omega

-- An array of zeros, then one column set.
theorem only_five {refcol : Nat} {before : Memory} (cells : ∀ i < rows, ∀ j < cols, peek m (x + 4 * (i * cols + j)) 4 =
      if j = refcol then toBytes 4 5 else peek (puts (zeros x rows cols) before) (x + 4 * (i * cols + j)) 4)
    (outside : ∀ a, a < x ∨ x + 4 * (rows * cols) ≤ a → m a = puts (zeros x rows cols) before a) : OnlyColumn x rows cols refcol 5 before m := by
  refine ⟨fun i row j below => ?_,fun a clear => (outside a clear).trans (zeros_outside clear)⟩
  have cell := cells i row j below
  rw [zeros_cell (cell_below row below)] at cell
  split at cell
  · rename_i own
    rw [if_pos own]
    exact intAt_bytes cell (by decide) (by decide)
  · rename_i other
    rw [if_neg other]
    exact intAt_bytes cell (by decide) (by decide)

def column (rows : Nat) : List UInt8 := (List.range rows).flatMap fun _ => toBytes 4 5

theorem column_loaded (wide : 2 < cols) (x rows : Nat) (m : Memory) :
    gather (puts (fives x rows cols) m) (elements (x + 4 * 2) 1 (vector rows 1 cols (basic 4))) = column rows := by
  rw [vector_gather (basic_dense 4)]
  refine List.flatMap_congr fun i listed => ?_
  have cell := @fives_cell rows cols i 2 x m (List.mem_range.mp listed) wide wide
  rw [if_pos rfl] at cell
  change peek _ (x + 4 * 2 + i * cols * 4) 4 = _
  rw [show x + 4 * 2 + i * cols * 4 = x + 4 * (i * cols + 2) by omega,cell]

theorem column_stored (row : i < rows) (below : j < cols) (wide : 3 < cols) :
    peek (scatter (elements (y + 4 * 3) 1 (vector rows 1 cols (basic 4))) (column rows) m) (y + 4 * (i * cols + j)) 4 =
      if j = 3 then toBytes 4 5 else peek m (y + 4 * (i * cols + j)) 4 := by
  by_cases third : j = 3
  · subst third
    have cell := @vector_scatter (basic 4) rows 1 cols i (basic_dense 4) (by omega) m (y + 4 * 3) (fun _ => toBytes 4 5)
      (fun _ => toBytes_length 4 5) row
    change peek _ (y + 4 * 3 + i * cols * 4) 4 = _ at cell
    rw [if_pos rfl,show y + 4 * (i * cols + 3) = y + 4 * 3 + i * cols * 4 by omega]
    exact cell
  · rw [if_neg third]
    refine peek_congr fun k inside => vector_keeps (basic_dense 4) m (y + 4 * 3) fun i' _ => ?_
    have apart := cell_ne below wide third i i'
    change y + 4 * (i * cols + j) + k < y + 4 * 3 + i' * cols * 4 ∨ y + 4 * 3 + i' * cols * 4 + 1 * 4 ≤ y + 4 * (i * cols + j) + k
    omega

theorem validate_none (all : ∀ i < rows, intAt m (y + 4 * (i * cols + j)) = val) : validate y rows cols j val m = 0 := by
  unfold validate
  induction rows with
  | zero => rfl
  | succ rows ih =>
      rw [List.range_succ,List.foldl_append,List.foldl_cons,List.foldl_nil,ih fun i below => all i (Nat.lt_succ_of_lt below)]
      exact if_neg fun wrong => wrong (all rows (Nat.lt_succ_self rows))

theorem fives_outside (wide : 2 < cols) (outside : a < x ∨ x + 4 * (rows * cols) ≤ a) : puts (fives x rows cols) m a = m a := by
  refine puts_outside fun write member => ?_
  obtain ⟨i,listed,rfl⟩ := List.mem_map.mp member
  have below := cell_below (List.mem_range.mp listed) wide
  rw [toBytes_length]
  omega

theorem column_outside (wide : 3 < cols) (outside : a < y ∨ y + 4 * (rows * cols) ≤ a) (payload : List UInt8) :
    scatter (elements (y + 4 * 3) 1 (vector rows 1 cols (basic 4))) payload m a = m a := by
  refine vector_keeps (basic_dense 4) m (y + 4 * 3) fun i row => ?_
  have below := cell_below row wide
  change a < y + 4 * 3 + i * cols * 4 ∨ y + 4 * 3 + i * cols * 4 + 1 * 4 ≤ a
  omega

end vector

-- However the steps of the two ranks fall: column 2 of rank 0 ends up as column 3 of rank 1, nothing else changes
-- there, validate finds no errors, and neither rank waits for ever.
theorem vector_delivered {rows cols x y : Nat} (wide : 3 < cols) {s t : TypeState} {scene : Session.Scene TypeAct Envelope (List UInt8) TypeState}
    (traded : Traded (typeConduct 0) (typeConduct 1) (typeScene (vectorDt 0 x rows cols) (vectorDt 1 y rows cols) s t) scene) :
    (scene.left.rest = [] → OnlyColumn x rows cols 2 5 s.memory scene.left.state.memory) ∧
      (scene.right.rest = [] → OnlyColumn y rows cols 3 5 t.memory scene.right.state.memory ∧ scene.right.state.errors = t.errors ++ [0]) ∧
      (scene.left.rest = [] ∧ scene.right.rest = [] ∨ ∃ next, Trade (typeConduct 0) (typeConduct 1) scene next) := by
  rw [typeScene,vectorDt_sender,vectorDt_receiver] at traded
  have mute := ((assigns_mute (zeros x rows cols)).append barrier_mute).append (assigns_mute (fives x rows cols))
  have ends : Mute [.barrier,.recv (y + 4 * 3) 1 (vector rows 1 cols (basic 4)) 0 52,.validate y rows cols 3 5,.finalize] := by
    intro a member rank message sends
    simp only [List.mem_cons,List.not_mem_nil,or_false] at member
    rcases member with rfl | rfl | rfl | rfl <;> cases sends
  have silent := (assigns_mute (zeros y rows cols)).append ends
  have loaded := column_loaded (show 2 < cols by omega) x rows (puts (zeros x rows cols) s.memory)
  have filled : (typeConduct 0).replay (fun _ => column rows) (assigns (zeros x rows cols) ++ [.barrier] ++ assigns (fives x rows cols)) s =
      {s with memory := puts (fives x rows cols) (puts (zeros x rows cols) s.memory)} := by
    rw [Session.replay_append,Session.replay_append,replay_assigns,replay_assigns]
    rfl
  obtain ⟨left,right,live⟩ := one_message mute silent (by simp only [List.filterMap_append,assigns_comm]; rfl)
    (by rw [filled]; exact loaded) traded
  let received := scatter (elements (y + 4 * 3) 1 (vector rows 1 cols (basic 4))) (column rows) (puts (zeros y rows cols) t.memory)
  have stored : (typeConduct 1).replay (fun _ => column rows) (assigns (zeros y rows cols) ++
      [.barrier,.recv (y + 4 * 3) 1 (vector rows 1 cols (basic 4)) 0 52,.validate y rows cols 3 5,.finalize]) t =
      ⟨received,t.errors ++ [validate y rows cols 3 5 received]⟩ := by
    rw [Session.replay_append,replay_assigns]
    rfl
  have only : OnlyColumn y rows cols 3 5 t.memory received :=
    only_five (fun i row j below => column_stored row below wide) fun a outside => column_outside wide outside _
  refine ⟨fun ended => ?_,fun ended => ?_,live⟩
  · rw [left ended,filled]
    exact only_five (fun i row j below => fives_cell row below (by omega)) fun a outside => fives_outside (by omega) outside
  · rw [right ended,stored,validate_none fun i row => (only.cells i row 3 wide).trans (if_pos rfl)]
    exact ⟨only,rfl⟩

theorem vector_delivered_two_rows : ∃ scene, Traded (typeConduct 0) (typeConduct 1)
      (typeScene (vectorDt 0 0 2 4) (vectorDt 1 0 2 4) ⟨fun _ => 7,[]⟩ ⟨fun _ => 9,[]⟩) scene ∧
    intAt scene.right.state.memory (4 * 3) = 5 ∧ intAt scene.right.state.memory (4 * 2) = 0 ∧ scene.right.state.errors = [0] := by
  have dual : (vectorDt 1 0 2 4).acts.filterMap (typeComm 1) = ((vectorDt 0 0 2 4).acts.filterMap (typeComm 0)).map Session.Comm.dual := rfl
  obtain ⟨scene,traded,_,ended⟩ := @Session.traded_finishes _ _ _ _ (typeConduct 0) (typeConduct 1) _ _ _ ⟨fun _ => 7,[]⟩ ⟨fun _ => 9,[]⟩ dual .start
  obtain ⟨only,errors⟩ := (vector_delivered (by decide) traded).2.1 ended
  exact ⟨scene,traded,only.cells 0 (by decide) 3 (by decide),only.cells 0 (by decide) 2 (by decide),errors⟩

section dense
variable {p q len : Nat} {m : Memory} {x : List UInt8} {data : Nat → List UInt8} {datatype : TypeMap} {s t : TypeState}
  {writes : List (Nat × List UInt8)} {scene : Session.Scene TypeAct Envelope (List UInt8) TypeState}

theorem receive_mute (q : Nat) (datatype : TypeMap) : Mute [.recv q 1 datatype 0 52,.finalize] := by
  intro a member rank message sends
  simp only [List.mem_cons,List.not_mem_nil,or_false] at member
  rcases member with rfl | rfl <;> cases sends

-- A rank that assigns and sends, one that receives, and a type without gaps: as many bytes as it has are copied, and no others.
theorem dense_message (whole : ∀ base, ScatterGather.addrs (elements base 1 datatype) = List.range' base len)
    (traded : Traded (typeConduct 0) (typeConduct 1) (.opening (assigns writes ++ [.send p 1 datatype 1 52,.finalize])
      [.recv q 1 datatype 0 52,.finalize] s t) scene) :
    (scene.right.rest = [] → scene.right.state.memory = put t.memory q (peek (puts writes s.memory) p len)) ∧
      (scene.left.rest = [] ∧ scene.right.rest = [] ∨ ∃ next, Trade (typeConduct 0) (typeConduct 1) scene next) := by
  have dual : [TypeAct.recv q 1 datatype 0 52,.finalize].filterMap (typeComm 1) =
      ((assigns writes ++ [TypeAct.send p 1 datatype 1 52,.finalize]).filterMap (typeComm 0)).map Session.Comm.dual := by
    rw [List.filterMap_append,assigns_comm]
    rfl
  have loaded : gather ((typeConduct 0).replay (fun _ => peek (puts writes s.memory) p len) (assigns writes) s).memory (elements p 1 datatype) =
      peek (puts writes s.memory) p len := by
    rw [replay_assigns,gather_dense (whole p)]
  obtain ⟨_,right,live⟩ := one_message (assigns_mute writes) (receive_mute q datatype) dual loaded traded
  refine ⟨fun ended => ?_,live⟩
  rw [right ended,← scatter_dense (whole q) (Nat.le_of_eq (peek_length _ _ _))]
  rfl

-- The assignments to the fields of `point`, and the type it is sent as.
def fields (p : Nat) : List (Nat × List UInt8) := [(p,toBytes 2 15),(p+2,toBytes 2 23),(p+4,toBytes 2 6),(p+6,toBytes 2 9)]
def fourInts : TypeMap := contiguous 4 (basic 4)

theorem fourInts_addrs (base : Nat) : ScatterGather.addrs (elements base 1 fourInts) = List.range' base 16 :=
  elements_dense (contiguous_dense (basic_dense 4) 4) base 1

theorem fields_put (p : Nat) (m : Memory) : puts (fields p) m = put m p (LatencyEcho.pointBytes ⟨15,23,6,9⟩) :=
  LatencyEcho.putPoint_bytes p ⟨15,23,6,9⟩ m

-- The assignments to the fields of `a`, and their bytes side by side.
def members (a : Nat) (x : List UInt8) (data : Nat → List UInt8) : List (Nat × List UInt8) :=
  [(a,toBytes 4 6),(a+4,x),(a+8,data 0),(a+8+8,data 1),(a+8+16,data 2),(a+8+24,data 3)]
def memberBytes (x : List UInt8) (data : Nat → List UInt8) : List UInt8 := toBytes 4 6 ++ x ++ data 0 ++ data 1 ++ data 2 ++ data 3

theorem structType_addrs (base : Nat) : ScatterGather.addrs (elements base 1 structType) = List.range' base 40 := by
  have dense : Datatype.Dense structType := by
    unfold Datatype.Dense
    rfl
  exact elements_dense dense base 1

theorem members_put (single : x.length = 4) (double : ∀ i, (data i).length = 8) (a : Nat) (m : Memory) :
    puts (members a x data) m = put m a (memberBytes x data) := by
  rw [memberBytes,← put_append,← put_append,← put_append,← put_append,← put_append]
  simp only [List.length_append,toBytes_length,single,double]
  rfl

end dense

-- However the steps of the two ranks fall, the message is twice as long as `point`: the point arrives, and with it
-- eight bytes of rank 0's memory replace the eight bytes behind the point of rank 1.
theorem contig_overruns {p q : Nat} {s t : TypeState} {scene : Session.Scene TypeAct Envelope (List UInt8) TypeState}
    (traded : Traded (typeConduct 0) (typeConduct 1) (typeScene (contigDt 0 p) (contigDt 1 q) s t) scene) :
    (scene.right.rest = [] → pointAt scene.right.state.memory q = ⟨15,23,6,9⟩ ∧
      (∀ k < 8, scene.right.state.memory (q+8+k) = s.memory (p+8+k)) ∧
      ∀ a, a < q ∨ q+16 ≤ a → scene.right.state.memory a = t.memory a) ∧
      (scene.left.rest = [] ∧ scene.right.rest = [] ∨ ∃ next, Trade (typeConduct 0) (typeConduct 1) scene next) := by
  obtain ⟨right,live⟩ := @dense_message p q 16 fourInts s t (fields p) scene fourInts_addrs traded
  refine ⟨fun ended => ?_,live⟩
  rw [right ended,fields_put]
  have long := LatencyEcho.pointBytes_length ⟨15,23,6,9⟩
  refine ⟨LatencyEcho.pointAt_bytes (by unfold LatencyEcho.Short; decide) ?_,fun k inside => ?_,fun a outside => ?_⟩
  · exact peek_eq long fun k inside => by rw [put_peek _ _ q p (by omega),put_at (by omega)]
  · rw [Nat.add_assoc,put_peek _ _ q p (by omega),put_outside (by omega),Nat.add_assoc]
  · exact put_outside (by rw [peek_length]; exact outside)

-- The eight bytes behind the point of rank 1 were 9, and those behind the point of rank 0 were 7.
theorem contig_overruns_sevens : ∃ scene, Traded (typeConduct 0) (typeConduct 1)
      (typeScene (contigDt 0 64) (contigDt 1 64) ⟨fun _ => 7,[]⟩ ⟨fun _ => 9,[]⟩) scene ∧
    pointAt scene.right.state.memory 64 = ⟨15,23,6,9⟩ ∧ scene.right.state.memory 79 = 7 ∧ scene.right.state.memory 80 = 9 := by
  have dual : (contigDt 1 64).acts.filterMap (typeComm 1) = ((contigDt 0 64).acts.filterMap (typeComm 0)).map Session.Comm.dual := rfl
  obtain ⟨scene,traded,_,ended⟩ := @Session.traded_finishes _ _ _ _ (typeConduct 0) (typeConduct 1) _ _ _ ⟨fun _ => 7,[]⟩ ⟨fun _ => 9,[]⟩ dual .start
  obtain ⟨point,behind,outside⟩ := (contig_overruns traded).1 ended
  exact ⟨scene,traded,point,behind 7 (by decide),outside 80 (by decide)⟩

-- struct_dt.c: the three displacements leave no gap, so all of `a` arrives, and nothing else.
theorem struct_delivered {p q : Nat} {x : List UInt8} {data : Nat → List UInt8} (single : x.length = 4) (double : ∀ i, (data i).length = 8)
    {s t : TypeState} {scene : Session.Scene TypeAct Envelope (List UInt8) TypeState}
    (traded : Traded (typeConduct 0) (typeConduct 1) (typeScene (structDt 0 p x data) (structDt 1 q x data) s t) scene) :
    (scene.right.rest = [] → peek scene.right.state.memory q 40 = memberBytes x data ∧
      ∀ a, a < q ∨ q+40 ≤ a → scene.right.state.memory a = t.memory a) ∧
      (scene.left.rest = [] ∧ scene.right.rest = [] ∨ ∃ next, Trade (typeConduct 0) (typeConduct 1) scene next) := by
  obtain ⟨right,live⟩ := @dense_message p q 40 structType s t (members p x data) scene structType_addrs traded
  have long : (memberBytes x data).length = 40 := by simp [memberBytes,single,double]
  refine ⟨fun ended => ?_,live⟩
  rw [right ended,members_put single double,peek_put_whole _ _ long]
  exact ⟨peek_put_whole _ _ long,fun a outside => put_outside (by rw [long]; exact outside)⟩

end MpidtBench.TypeDelivery
