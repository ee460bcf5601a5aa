import Mathlib.Data.List.Basic
import Mathlib.Data.Int.Notation

namespace Tiling

-- Ranges `[start, start + length)` of indices, in the order given.
abbrev Batch := Int × Int

-- Each range starts where the one before it ended.
def Contiguous : Int → List Batch → Int → Prop
  | first,[],last => first = last
  | first,batch :: rest,last => batch.1 = first ∧ Contiguous (first + batch.2) rest last

-- Ranges of at most `limit` indices that cover `[0, count)`, each index once.
structure Tiled (limit count : Int) (batches : List Batch) : Prop where
  sized : ∀ batch ∈ batches, 1 ≤ batch.2 ∧ batch.2 ≤ limit
  contiguous : Contiguous 0 batches count
  disjoint : batches.Pairwise fun earlier later => earlier.1 + earlier.2 ≤ later.1
  bounded : ∀ batch ∈ batches, 0 ≤ batch.1 ∧ batch.1 + batch.2 ≤ count
  covers : ∀ index, (∃ batch ∈ batches, batch.1 ≤ index ∧ index < batch.1 + batch.2) ↔ 0 ≤ index ∧ index < count

section
variable {batches : List Batch} {first last : Int}

theorem contiguous_append (more : List Batch) : Contiguous first (batches ++ more) last ↔
    ∃ middle, Contiguous first batches middle ∧ Contiguous middle more last := by
  induction batches generalizing first with
  | nil => simp [Contiguous]
  | cons batch rest ih => simp only [List.cons_append,Contiguous,ih,and_assoc,exists_and_left]

theorem contiguous_le (positive : ∀ batch ∈ batches, 1 ≤ batch.2) (whole : Contiguous first batches last) : first ≤ last := by
  induction batches generalizing first with
  | nil => exact Int.le_of_eq whole
  | cons batch rest ih =>
      have size := positive batch (by simp)
      have tail := ih (fun b member => positive b (List.mem_cons_of_mem _ member)) whole.2
      omega

theorem contiguous_within (positive : ∀ batch ∈ batches, 1 ≤ batch.2) (whole : Contiguous first batches last) :
    ∀ batch ∈ batches, first ≤ batch.1 ∧ batch.1 + batch.2 ≤ last := by
  induction batches generalizing first with
  | nil => exact nofun
  | cons batch rest ih =>
      have size := positive batch (by simp)
      have others := fun b member => positive b (List.mem_cons_of_mem batch member)
      obtain ⟨start,tail⟩ := whole
      have bound := contiguous_le others tail
      rintro other (_ | ⟨_,later⟩)
      · omega
      · obtain ⟨low,high⟩ := ih others tail other later
        omega

theorem contiguous_covers (positive : ∀ batch ∈ batches, 1 ≤ batch.2) (whole : Contiguous first batches last) (index : Int) :
    (∃ batch ∈ batches, batch.1 ≤ index ∧ index < batch.1 + batch.2) ↔ first ≤ index ∧ index < last := by
  induction batches generalizing first with
  | nil =>
      have same : first = last := whole
      simp only [List.not_mem_nil,false_and,exists_false,false_iff]
      omega
  | cons batch rest ih =>
      have size := positive batch (by simp)
      have others := fun b member => positive b (List.mem_cons_of_mem batch member)
      obtain ⟨start,tail⟩ := whole
      have bound := contiguous_le others tail
      simp only [List.mem_cons,exists_eq_or_imp]
      rw [ih others tail,start]
      omega

theorem contiguous_disjoint (positive : ∀ batch ∈ batches, 1 ≤ batch.2) (whole : Contiguous first batches last) :
    batches.Pairwise fun earlier later => earlier.1 + earlier.2 ≤ later.1 := by
  induction batches generalizing first with
  | nil => exact .nil
  | cons batch rest ih =>
      have others := fun b member => positive b (List.mem_cons_of_mem batch member)
      obtain ⟨start,tail⟩ := whole
      refine .cons ?_ (ih others tail)
      intro later member
      have within := contiguous_within others tail later member
      omega

theorem tiled_of_contiguous (sized : ∀ batch ∈ batches, 1 ≤ batch.2 ∧ batch.2 ≤ limit)
    (whole : Contiguous 0 batches count) : Tiled limit count batches :=
  have positive := fun batch member => (sized batch member).1
  ⟨sized,whole,contiguous_disjoint positive whole,contiguous_within positive whole,contiguous_covers positive whole⟩

def fullBatches (size : Int) (passes : Nat) : List Batch := (List.range passes).map fun i : Nat => ((i : Int) * size,size)

theorem fullBatches_succ (size : Int) (passes : Nat) :
    fullBatches size (passes+1) = fullBatches size passes ++ [((passes : Int) * size,size)] := by
  simp [fullBatches,List.range_succ]

theorem fullBatches_contiguous (size : Int) (passes : Nat) : Contiguous 0 (fullBatches size passes) (passes * size) := by
  induction passes with
  | zero => simp [fullBatches,Contiguous]
  | succ passes ih =>
      rw [fullBatches_succ,contiguous_append]
      refine ⟨_,ih,rfl,?_⟩
      change (passes : Int) * size + size = ((passes + 1 : Nat) : Int) * size
      rw [Int.natCast_add,Int.add_mul,Int.natCast_one,Int.one_mul]

theorem fullBatches_tiled (positive : 1 ≤ size) (limited : size ≤ limit) (passes : Nat) :
    Tiled limit (passes * size) (fullBatches size passes) := by
  refine tiled_of_contiguous ?_ (fullBatches_contiguous size passes)
  intro batch member
  obtain ⟨i,_,rfl⟩ := List.mem_map.mp member
  exact ⟨positive,limited⟩

end
end Tiling
