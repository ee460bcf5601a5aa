import Mathlib.Data.List.Nodup
import Mathlib.Data.List.Range
import Mathlib.Logic.Function.Basic

namespace ByteMemory

abbrev Memory := Nat → UInt8

-- `len` bytes of `source` from `src` on replace those of `m` from `dst` on. All bytes
-- are read before any is written; `source` may be the memory of another process.
def copyInto (m : Memory) (dst : Nat) (source : Memory) (src len : Nat) : Memory :=
  fun a => if dst ≤ a ∧ a < dst + len then source (src + (a - dst)) else m a

def fill (m : Memory) (ptr : Nat) (value : UInt8) (len : Nat) : Memory :=
  fun a => if ptr ≤ a ∧ a < ptr + len then value else m a

theorem fill_inside (m : Memory) (value : UInt8) (offset : k < len) : fill m ptr value len (ptr+k) = value := by
  simp [fill,offset]

-- A transfer as the list of single-byte moves it makes, each a pair (to, source address).
def transfer (source : Memory) : List (Nat × Nat) → Memory → Memory
  | [],m => m
  | move :: rest,m => transfer source rest (Function.update m move.1 (source move.2))

def span (dst src len : Nat) : List (Nat × Nat) := (List.range' dst len).zip (List.range' src len)

@[simp] theorem transfer_nil (source m : Memory) : transfer source [] m = m := rfl

theorem transfer_append (source : Memory) (first second : List (Nat × Nat)) (m : Memory) :
    transfer source (first ++ second) m = transfer source second (transfer source first m) := by
  induction first generalizing m with
  | nil => rfl
  | cons move rest ih => exact ih _

theorem transfer_outside (source : Memory) {moves : List (Nat × Nat)} {m : Memory}
    (outside : a ∉ moves.map Prod.fst) : transfer source moves m a = m a := by
  induction moves generalizing m with
  | nil => rfl
  | cons move rest ih =>
      simp only [List.map_cons,List.mem_cons,not_or] at outside
      rw [transfer,ih outside.2,Function.update_of_ne outside.1]

theorem transfer_inside (source : Memory) {moves : List (Nat × Nat)} {m : Memory}
    (distinct : (moves.map Prod.fst).Nodup) (present : move ∈ moves) :
    transfer source moves m move.1 = source move.2 := by
  induction moves generalizing m with
  | nil => cases present
  | cons head rest ih =>
      simp only [List.map_cons,List.nodup_cons] at distinct
      rcases List.mem_cons.mp present with rfl | later
      · rw [transfer,transfer_outside source distinct.1,Function.update_self]
      · exact ih distinct.2 later

theorem transfer_source (source : Memory) {moves : List (Nat × Nat)} {m : Memory} (written : a ∈ moves.map Prod.fst) :
    ∃ move ∈ moves, transfer source moves m a = source move.2 := by
  induction moves generalizing m with
  | nil => cases written
  | cons head rest ih =>
      by_cases later : a ∈ rest.map Prod.fst
      · obtain ⟨move,member,moved⟩ := @ih (Function.update m head.1 (source head.2)) later
        exact ⟨move,List.mem_cons_of_mem _ member,moved⟩
      · have first : a = head.1 := by
          rcases List.mem_cons.mp written with same | other
          · exact same
          · exact absurd other later
        refine ⟨head,by simp,?_⟩
        rw [transfer,transfer_outside source later,first,Function.update_self]

theorem transfer_congr {source other : Memory} {moves : List (Nat × Nat)}
    (same : ∀ move ∈ moves, source move.2 = other move.2) (m : Memory) :
    transfer source moves m = transfer other moves m := by
  induction moves generalizing m with
  | nil => rfl
  | cons head rest ih =>
      rw [transfer,transfer,same head (by simp)]
      exact ih (fun move present => same move (List.mem_cons_of_mem _ present)) _

theorem span_fst (dst src len : Nat) : (span dst src len).map Prod.fst = List.range' dst len :=
  List.map_fst_zip (by simp)

theorem mem_span {move : Nat × Nat} : move ∈ span dst src len ↔ ∃ k < len, move = (dst+k,src+k) := by
  rw [span,List.range'_eq_map_range,List.range'_eq_map_range,List.zip_map']
  simp only [List.mem_map,List.mem_range,eq_comm]

theorem copyInto_transfer (m : Memory) (dst : Nat) (source : Memory) (src len : Nat) :
    copyInto m dst source src len = transfer source (span dst src len) m := by
  funext a
  by_cases inside : dst ≤ a ∧ a < dst + len
  · obtain ⟨k,rfl⟩ : ∃ k, a = dst + k := ⟨a - dst,by omega⟩
    have moved : (dst+k,src+k) ∈ span dst src len := mem_span.mpr ⟨k,by omega,rfl⟩
    rw [transfer_inside source (by rw [span_fst]; exact List.nodup_range') moved]
    simp [copyInto,inside.2]
  · have absent : a ∉ (span dst src len).map Prod.fst := by
      rw [span_fst,List.mem_range'_1]; omega
    rw [transfer_outside source absent]
    simp [copyInto,inside]

-- Copies within one memory, each reading what the earlier ones left. When no byte
-- read is ever written they move the bytes the memory held at the start.
structure Copy where
  dst : Nat
  src : Nat
  len : Nat

def Copy.moves (copy : Copy) : List (Nat × Nat) := span copy.dst copy.src copy.len

def copyAll (copies : List Copy) (m : Memory) : Memory :=
  copies.foldl (fun m copy => copyInto m copy.dst m copy.src copy.len) m

theorem copyAll_transfer {copies : List Copy} {m : Memory}
    (apart : ∀ written ∈ copies.flatMap Copy.moves, ∀ read ∈ copies.flatMap Copy.moves, written.1 ≠ read.2) :
    copyAll copies m = transfer m (copies.flatMap Copy.moves) m := by
  induction copies generalizing m with
  | nil => rfl
  | cons copy rest ih =>
      simp only [List.flatMap_cons,List.mem_append] at apart
      have step : copyAll (copy :: rest) m = copyAll rest (transfer m copy.moves m) := by
        simp only [copyAll,List.foldl_cons]
        rw [copyInto_transfer]
        rfl
      rw [step,ih (fun w hw r hr => apart w (.inr hw) r (.inr hr)),List.flatMap_cons,transfer_append]
      apply transfer_congr
      intro read present
      apply transfer_outside
      intro written
      obtain ⟨move,moved,equal⟩ := List.mem_map.mp written
      exact apart move (.inl moved) read (.inr present) equal

end ByteMemory
