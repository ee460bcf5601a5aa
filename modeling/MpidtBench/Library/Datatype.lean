import MpidtBench.Library.IoVec
import MpidtBench.Library.Stored

namespace Datatype
open ScatterGather ByteMemory Stored

-- A type map: the bytes of an element, counted from its address, and how far behind it the next one lies.
structure TypeMap where
  blocks : List IoVec
  extent : Nat
deriving DecidableEq, Repr

def shift (offset : Nat) (blocks : List IoVec) : List IoVec := blocks.map fun v => ⟨offset + v.iovBase,v.iovLen⟩

def elements (base count : Nat) (t : TypeMap) : List IoVec := (List.range count).flatMap fun i => shift (base + i * t.extent) t.blocks

-- A basic type, and what MPI_Type_contiguous, MPI_Type_vector and MPI_Type_struct make of others. The
-- extent of a structure is up to its alignment.
def basic (size : Nat) : TypeMap := ⟨[⟨0,size⟩],size⟩
def contiguous (count : Nat) (t : TypeMap) : TypeMap := ⟨elements 0 count t,count * t.extent⟩
def vector (count blocklength stride : Nat) (t : TypeMap) : TypeMap :=
  ⟨(List.range count).flatMap fun i => elements (i * stride * t.extent) blocklength t,((count - 1) * stride + blocklength) * t.extent⟩
def struct (fields : List (Nat × Nat × TypeMap)) (extent : Nat) : TypeMap :=
  ⟨fields.flatMap fun field => elements field.2.1 field.1 field.2.2,extent⟩

-- The bytes of a message, and what receiving them does. A short message leaves the rest alone.
def gather (m : Memory) (blocks : List IoVec) : List UInt8 := (addrs blocks).map m
def scatter (blocks : List IoVec) (payload : List UInt8) (m : Memory) : Memory :=
  transfer (fun i => payload.getD i 0) (unpackMoves 0 ((addrs blocks).take payload.length)) m

def Dense (t : TypeMap) : Prop := addrs t.blocks = List.range' 0 t.extent

section
variable {t : TypeMap} {blocks : List IoVec} {payload : List UInt8} {m : Memory} {base count a k : Nat}

theorem addrs_flatMap (list : List β) (f : β → List IoVec) : addrs (list.flatMap f) = list.flatMap fun b => addrs (f b) := by
  induction list with
  | nil => rfl
  | cons b rest ih => rw [List.flatMap_cons,addrs_append,ih,List.flatMap_cons]

theorem addrs_shift (offset : Nat) (blocks : List IoVec) : addrs (shift offset blocks) = (addrs blocks).map (offset + ·) := by
  induction blocks with
  | nil => rfl
  | cons v rest ih =>
      rw [shift,List.map_cons,addrs_cons,addrs_cons,List.map_append,List.map_add_range']
      exact congrArg (List.range' (offset + v.iovBase) v.iovLen ++ ·) ih

theorem range_blocks (base width count : Nat) :
    (List.range count).flatMap (fun i => List.range' (base + i * width) width) = List.range' base (count * width) := by
  induction count with
  | zero => simp
  | succ count ih =>
      rw [List.range_succ,List.flatMap_append,List.flatMap_singleton,ih,List.range'_append_1,Nat.succ_mul]

theorem element_dense (dense : Dense t) (base : Nat) : addrs (shift base t.blocks) = List.range' base t.extent := by
  rw [addrs_shift,dense,List.map_add_range',Nat.add_zero]

theorem elements_dense (dense : Dense t) (base count : Nat) : addrs (elements base count t) = List.range' base (count * t.extent) := by
  rw [elements,addrs_flatMap,← range_blocks]
  exact List.flatMap_congr fun i _ => element_dense dense _

theorem basic_dense (size : Nat) : Dense (basic size) := List.append_nil _

theorem contiguous_dense (dense : Dense t) (count : Nat) : Dense (contiguous count t) := elements_dense dense 0 count

theorem vector_addrs (dense : Dense t) (base count blocklength stride : Nat) :
    addrs (elements base 1 (vector count blocklength stride t)) =
      (List.range count).flatMap fun i => List.range' (base + i * stride * t.extent) (blocklength * t.extent) := by
  rw [elements,addrs_flatMap,List.range_one,List.flatMap_singleton,Nat.zero_mul,Nat.add_zero,addrs_shift,vector,addrs_flatMap,List.map_flatMap]
  refine List.flatMap_congr fun i _ => ?_
  rw [elements_dense dense,List.map_add_range']

@[simp] theorem gather_length (m : Memory) (blocks : List IoVec) : (gather m blocks).length = total blocks := by
  rw [gather,List.length_map,addrs_length]

theorem scatter_inside (distinct : DisjointBlocks blocks) (known : (addrs blocks)[k]? = some a) (value : payload[k]? = some byte) :
    scatter blocks payload m a = byte := by
  have within : k < payload.length := (List.getElem?_eq_some_iff.mp value).1
  have taken : ((addrs blocks).take payload.length)[k]? = some a := by rw [List.getElem?_take_of_lt within,known]
  rw [scatter,unpack_inside _ _ (List.Nodup.sublist (List.take_sublist _ _) distinct) taken,Nat.zero_add,List.getD_eq_getElem?_getD,value]
  rfl

theorem scatter_outside (outside : a ∉ addrs blocks) : scatter blocks payload m a = m a :=
  unpack_outside _ _ fun member => outside (List.mem_of_mem_take member)

theorem gather_dense (whole : addrs blocks = List.range' base len) (m : Memory) : gather m blocks = peek m base len := by
  rw [gather,whole,peek]

theorem scatter_dense (whole : addrs blocks = List.range' base len) (short : payload.length ≤ len) (m : Memory) :
    scatter blocks payload m = put m base payload := by
  funext a
  by_cases inside : base ≤ a ∧ a < base + payload.length
  · obtain ⟨k,rfl⟩ : ∃ k, a = base + k := ⟨a - base,by omega⟩
    have known : (addrs blocks)[k]? = some (base + k) := by rw [whole,List.getElem?_range' (by omega),Nat.one_mul]
    have distinct : DisjointBlocks blocks := by
      rw [DisjointBlocks,whole]
      exact List.nodup_range'
    rw [put_at (by omega)]
    refine scatter_inside distinct known ?_
    rw [List.getElem?_eq_getElem (by omega),List.getD_eq_getElem _ _ (by omega)]
  · rw [put_outside (by omega),scatter,whole]
    refine unpack_outside _ _ fun member => inside ?_
    rw [List.take_range'_of_length_ge short,List.mem_range'_1] at member
    exact member

theorem pieces_length {f : Nat → List β} (width : ∀ i, (f i).length = w) (n : Nat) : ((List.range n).flatMap f).length = n * w := by
  induction n with
  | zero => rw [Nat.zero_mul]; rfl
  | succ n ih => rw [List.range_succ,List.flatMap_append,List.flatMap_singleton,List.length_append,ih,width,Nat.succ_mul]

theorem pieces_at {f : Nat → List β} (width : ∀ i, (f i).length = w) (below : i < n) (inside : k < w) :
    ((List.range n).flatMap f)[i * w + k]? = (f i)[k]? := by
  induction n with
  | zero => cases below
  | succ n ih =>
      rw [List.range_succ,List.flatMap_append,List.flatMap_singleton]
      have long := pieces_length width n
      rcases Nat.lt_succ_iff_lt_or_eq.mp below with earlier | rfl
      · have within : i * w + k < n * w := by
          have next : (i+1) * w ≤ n * w := Nat.mul_le_mul_right w earlier
          rw [Nat.succ_mul] at next
          omega
        rw [List.getElem?_append_left (by omega),ih earlier]
      · rw [List.getElem?_append_right (by omega),long,Nat.add_sub_cancel_left]

theorem strided_nodup (narrow : len ≤ stride) (base count : Nat) :
    ((List.range count).flatMap fun i => List.range' (base + i * stride) len).Nodup := by
  induction count with
  | zero => exact List.nodup_nil
  | succ count ih =>
      rw [List.range_succ,List.flatMap_append,List.flatMap_singleton]
      refine List.nodup_append.mpr ⟨ih,List.nodup_range',?_⟩
      rintro a before _ last rfl
      obtain ⟨i,listed,inside⟩ := List.mem_flatMap.mp before
      rw [List.mem_range] at listed
      rw [List.mem_range'_1] at inside last
      have next : (i+1) * stride ≤ count * stride := Nat.mul_le_mul_right stride listed
      rw [Nat.succ_mul] at next
      omega

section vector
variable {count blocklength stride : Nat}

-- The blocks of a vector side by side in a message, and set down again at another place.
theorem vector_gather (dense : Dense t) (m : Memory) (base : Nat) : gather m (elements base 1 (vector count blocklength stride t)) =
    (List.range count).flatMap fun i => peek m (base + i * stride * t.extent) (blocklength * t.extent) := by
  rw [gather,vector_addrs dense,List.map_flatMap]
  rfl

theorem vector_scatter (dense : Dense t) (narrow : blocklength ≤ stride) (m : Memory) (base : Nat) {pieces : Nat → List UInt8}
    (sized : ∀ i, (pieces i).length = blocklength * t.extent) (below : i < count) :
    peek (scatter (elements base 1 (vector count blocklength stride t)) ((List.range count).flatMap pieces) m)
      (base + i * stride * t.extent) (blocklength * t.extent) = pieces i := by
  have addresses := vector_addrs dense base count blocklength stride
  have distinct : DisjointBlocks (elements base 1 (vector count blocklength stride t)) := by
    rw [DisjointBlocks,addresses]
    simp only [Nat.mul_assoc]
    exact strided_nodup (Nat.mul_le_mul_right _ narrow) base count
  refine peek_eq (sized i) fun k inside => ?_
  have known : (addrs (elements base 1 (vector count blocklength stride t)))[i * (blocklength * t.extent) + k]? =
      some (base + i * stride * t.extent + k) := by
    rw [addresses,pieces_at (fun _ => List.length_range') below inside,List.getElem?_range' inside,Nat.one_mul]
  have value : ((List.range count).flatMap pieces)[i * (blocklength * t.extent) + k]? = some ((pieces i).getD k 0) := by
    rw [pieces_at sized below inside,List.getElem?_eq_getElem (by rw [sized]; exact inside),List.getD_eq_getElem]
  exact scatter_inside distinct known value

theorem vector_keeps (dense : Dense t) (m : Memory) (base : Nat)
    (outside : ∀ i < count, a < base + i * stride * t.extent ∨ base + i * stride * t.extent + blocklength * t.extent ≤ a) :
    scatter (elements base 1 (vector count blocklength stride t)) payload m a = m a := by
  refine scatter_outside fun member => ?_
  rw [vector_addrs dense] at member
  obtain ⟨i,listed,inside⟩ := List.mem_flatMap.mp member
  rw [List.mem_range'_1] at inside
  have clear := outside i (List.mem_range.mp listed)
  omega

end vector
end
end Datatype
