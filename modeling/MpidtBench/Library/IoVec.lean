import Mathlib.Algebra.Ring.Nat
import MpidtBench.Library.ByteMemory

namespace ScatterGather
open ByteMemory

-- One entry of a scatter/gather list: `iovLen` bytes from address `iovBase` on.
structure IoVec where
  iovBase : Nat
  iovLen : Nat
deriving DecidableEq, Repr

def addrs (blocks : List IoVec) : List Nat := blocks.flatMap fun v => List.range' v.iovBase v.iovLen
def total (blocks : List IoVec) : Nat := (blocks.map IoVec.iovLen).sum

def DisjointBlocks (blocks : List IoVec) : Prop := (addrs blocks).Nodup
def Outside (blocks : List IoVec) (ptr len : Nat) : Prop := ∀ a ∈ addrs blocks, a < ptr ∨ ptr + len ≤ a

@[simp] theorem addrs_nil : addrs [] = [] := rfl
@[simp] theorem addrs_cons (v : IoVec) (blocks : List IoVec) :
    addrs (v :: blocks) = List.range' v.iovBase v.iovLen ++ addrs blocks := by simp [addrs]
@[simp] theorem addrs_append (first second : List IoVec) : addrs (first ++ second) = addrs first ++ addrs second := by
  simp [addrs]
theorem addrs_flatten (lists : List (List IoVec)) : addrs lists.flatten = lists.flatMap addrs := by
  induction lists with
  | nil => rfl
  | cons first rest ih => simp [ih]
@[simp] theorem total_nil : total [] = 0 := rfl
@[simp] theorem total_cons (v : IoVec) (blocks : List IoVec) : total (v :: blocks) = v.iovLen + total blocks := by
  simp [total]
@[simp] theorem total_append (first second : List IoVec) : total (first ++ second) = total first + total second := by
  simp [total]

theorem addrs_length (blocks : List IoVec) : (addrs blocks).length = total blocks := by
  induction blocks with
  | nil => rfl
  | cons v rest ih => simp [ih]

theorem member_le_total {blocks : List IoVec} (member : v ∈ blocks) : v.iovLen ≤ total blocks := by
  induction blocks with
  | nil => cases member
  | cons w rest ih =>
      rcases List.mem_cons.mp member with rfl | later
      · simp
      · have bound := ih later
        simp only [total_cons]; omega

theorem total_take_succ {liov : List IoVec} (known : liov[i]? = some v) :
    total (liov.take (i+1)) = total (liov.take i) + v.iovLen := by
  rw [List.take_add_one,known]
  simp

theorem total_take_le (liov : List IoVec) (i : Nat) : total (liov.take i) ≤ total liov := by
  have parts := congrArg total (List.take_append_drop i liov)
  rw [total_append] at parts
  omega

theorem total_congr {first second : List IoVec} (same : first.map IoVec.iovLen = second.map IoVec.iovLen) :
    total first = total second := by simp [total,same]

-- Packing moves the bytes at `addresses` to consecutive bytes from `ptr` on,
-- unpacking moves them back.
def packMoves (ptr : Nat) (addresses : List Nat) : List (Nat × Nat) :=
  (List.range' ptr addresses.length).zip addresses
def unpackMoves (ptr : Nat) (addresses : List Nat) : List (Nat × Nat) :=
  addresses.zip (List.range' ptr addresses.length)

theorem packMoves_append (ptr : Nat) (first second : List Nat) :
    packMoves ptr (first ++ second) = packMoves ptr first ++ packMoves (ptr+first.length) second := by
  simp only [packMoves,List.length_append]
  rw [← List.range'_append_1,List.zip_append (by simp)]

theorem unpackMoves_append (ptr : Nat) (first second : List Nat) :
    unpackMoves ptr (first ++ second) = unpackMoves ptr first ++ unpackMoves (ptr+first.length) second := by
  simp only [unpackMoves,List.length_append]
  rw [← List.range'_append_1,List.zip_append (by simp)]

theorem packMoves_block (ptr base len : Nat) : packMoves ptr (List.range' base len) = span ptr base len := by
  simp [packMoves,span]
theorem unpackMoves_block (ptr base len : Nat) : unpackMoves ptr (List.range' base len) = span base ptr len := by
  simp [unpackMoves,span]

theorem packMoves_fst (ptr : Nat) (addresses : List Nat) :
    (packMoves ptr addresses).map Prod.fst = List.range' ptr addresses.length := List.map_fst_zip (by simp)
theorem packMoves_snd (ptr : Nat) (addresses : List Nat) : (packMoves ptr addresses).map Prod.snd = addresses :=
  List.map_snd_zip (by simp)
theorem unpackMoves_fst (ptr : Nat) (addresses : List Nat) : (unpackMoves ptr addresses).map Prod.fst = addresses :=
  List.map_fst_zip (by simp)
theorem unpackMoves_snd (ptr : Nat) (addresses : List Nat) :
    (unpackMoves ptr addresses).map Prod.snd = List.range' ptr addresses.length := List.map_snd_zip (by simp)

theorem packMoves_at (addresses : List Nat) (known : addresses[k]? = some a) : (ptr+k,a) ∈ packMoves ptr addresses := by
  have bound : k < addresses.length := (List.getElem?_eq_some_iff.mp known).1
  refine List.mem_iff_getElem?.mpr ⟨k,?_⟩
  rw [packMoves,List.getElem?_zip_eq_some]
  exact ⟨by simp [List.getElem?_range' bound],known⟩

theorem unpackMoves_at (addresses : List Nat) (known : addresses[k]? = some a) : (a,ptr+k) ∈ unpackMoves ptr addresses := by
  have bound : k < addresses.length := (List.getElem?_eq_some_iff.mp known).1
  refine List.mem_iff_getElem?.mpr ⟨k,?_⟩
  rw [unpackMoves,List.getElem?_zip_eq_some]
  exact ⟨known,by simp [List.getElem?_range' bound]⟩

theorem pack_inside (source m : Memory) {addresses : List Nat} (known : addresses[k]? = some a) :
    transfer source (packMoves ptr addresses) m (ptr+k) = source a :=
  transfer_inside source (by rw [packMoves_fst]; exact List.nodup_range') (packMoves_at addresses known)

theorem pack_outside (source m : Memory) {addresses : List Nat} (outside : a < ptr ∨ ptr + addresses.length ≤ a) :
    transfer source (packMoves ptr addresses) m a = m a := by
  apply transfer_outside
  rw [packMoves_fst,List.mem_range'_1]
  omega

theorem unpack_inside (source m : Memory) {addresses : List Nat} (distinct : addresses.Nodup)
    (known : addresses[k]? = some a) : transfer source (unpackMoves ptr addresses) m a = source (ptr+k) :=
  transfer_inside source (by rw [unpackMoves_fst]; exact distinct) (unpackMoves_at addresses known)

theorem unpack_outside (source m : Memory) {addresses : List Nat} (outside : a ∉ addresses) :
    transfer source (unpackMoves ptr addresses) m a = m a := by
  apply transfer_outside
  rw [unpackMoves_fst]
  exact outside

theorem addrs_at {blocks : List IoVec} (known : blocks[i]? = some v) (inside : k < v.iovLen) :
    (addrs blocks)[total (blocks.take i) + k]? = some (v.iovBase + k) := by
  induction blocks generalizing i with
  | nil => cases known
  | cons w rest ih =>
      cases i with
      | zero =>
          cases known
          simp only [List.take_zero,total_nil,Nat.zero_add,addrs_cons]
          rw [List.getElem?_append_left (by simpa using inside),List.getElem?_range' inside]
          simp
      | succ i =>
          simp only [List.take_succ_cons,total_cons,addrs_cons]
          rw [Nat.add_assoc,List.getElem?_append_right (by simp)]
          simpa using ih known

-- The copies that carry the pieces of a list to, respectively from, a packed region,
-- `offset` bytes of which are already done.
def packCopies (ptr : Nat) : Nat → List IoVec → List Copy
  | _,[] => []
  | offset,v :: rest => ⟨ptr+offset,v.iovBase,v.iovLen⟩ :: packCopies ptr (offset+v.iovLen) rest
def unpackCopies (ptr : Nat) : Nat → List IoVec → List Copy
  | _,[] => []
  | offset,v :: rest => ⟨v.iovBase,ptr+offset,v.iovLen⟩ :: unpackCopies ptr (offset+v.iovLen) rest

theorem packCopies_append (ptr offset : Nat) (first second : List IoVec) :
    packCopies ptr offset (first ++ second) = packCopies ptr offset first ++ packCopies ptr (offset+total first) second := by
  induction first generalizing offset with
  | nil => rfl
  | cons v rest ih => simp [packCopies,ih,Nat.add_assoc]

theorem unpackCopies_append (ptr offset : Nat) (first second : List IoVec) :
    unpackCopies ptr offset (first ++ second) =
      unpackCopies ptr offset first ++ unpackCopies ptr (offset+total first) second := by
  induction first generalizing offset with
  | nil => rfl
  | cons v rest ih => simp [unpackCopies,ih,Nat.add_assoc]

-- Only the bytes named matter, not how they are cut into pieces.
theorem packCopies_moves (ptr offset : Nat) (pieces : List IoVec) :
    (packCopies ptr offset pieces).flatMap Copy.moves = packMoves (ptr+offset) (addrs pieces) := by
  induction pieces generalizing offset with
  | nil => rfl
  | cons v rest ih =>
      simp only [packCopies,List.flatMap_cons,ih,addrs_cons,packMoves_append,packMoves_block,Copy.moves]
      simp [Nat.add_assoc]

theorem unpackCopies_moves (ptr offset : Nat) (pieces : List IoVec) :
    (unpackCopies ptr offset pieces).flatMap Copy.moves = unpackMoves (ptr+offset) (addrs pieces) := by
  induction pieces generalizing offset with
  | nil => rfl
  | cons v rest ih =>
      simp only [unpackCopies,List.flatMap_cons,ih,addrs_cons,unpackMoves_append,unpackMoves_block,Copy.moves]
      simp [Nat.add_assoc]

-- Pieces that stay clear of the packed region move the bytes the memory held at the start.
theorem packCopies_effect {pieces : List IoVec} (apart : Outside pieces ptr (total pieces)) (m : Memory) :
    copyAll (packCopies ptr 0 pieces) m = transfer m (packMoves ptr (addrs pieces)) m := by
  rw [copyAll_transfer,packCopies_moves,Nat.add_zero]
  intro written move read other
  rw [packCopies_moves,Nat.add_zero] at move other
  have first : written.1 ∈ List.range' ptr (addrs pieces).length := by
    rw [← packMoves_fst]; exact List.mem_map.mpr ⟨_,move,rfl⟩
  have second : read.2 ∈ addrs pieces := by
    rw [← packMoves_snd ptr (addrs pieces)]; exact List.mem_map.mpr ⟨_,other,rfl⟩
  rw [List.mem_range'_1,addrs_length] at first
  have clear := apart _ second
  omega

theorem unpackCopies_effect {pieces : List IoVec} (apart : Outside pieces ptr (total pieces)) (m : Memory) :
    copyAll (unpackCopies ptr 0 pieces) m = transfer m (unpackMoves ptr (addrs pieces)) m := by
  rw [copyAll_transfer,unpackCopies_moves,Nat.add_zero]
  intro written move read other
  rw [unpackCopies_moves,Nat.add_zero] at move other
  have first : written.1 ∈ addrs pieces := by
    rw [← unpackMoves_fst ptr (addrs pieces)]; exact List.mem_map.mpr ⟨_,move,rfl⟩
  have second : read.2 ∈ List.range' ptr (addrs pieces).length := by
    rw [← unpackMoves_snd]; exact List.mem_map.mpr ⟨_,other,rfl⟩
  rw [List.mem_range'_1,addrs_length] at second
  have clear := apart _ first
  omega

end ScatterGather
