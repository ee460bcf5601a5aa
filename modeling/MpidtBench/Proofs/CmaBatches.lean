import MpidtBench.Library.Tiling
import MpidtBench.Model.Cma

namespace MpidtBench.CmaBatches
open Traced CInteger ScatterGather Tiling MpidtBench

def batches (acts : List Act) : List Batch := acts.filterMap fun
  | .processVmReadv _ _ iovOff currBlks _ => some (iovOff,currBlks)
  | _ => none

-- The loop ends with everything copied, and its batches tile the list.
def TilesList (limit : Int) (nblocks bufsize : Nat) (step : CmaState → Run Fault Act (CmaState ⊕ CmaState)) : Prop :=
  ∃ acts s, Ends step (CmaState.start bufsize) acts s ∧ Tiled limit nblocks (batches acts) ∧
    s.totalCopied = bufsize ∧ s.remaining = 0

-- Every batch inside the list transfers all of its bytes; on others nothing is assumed.
def FullTransfers (nblocks blocksize : Nat) (readv : Int → Int → Nat) : Prop :=
  ∀ first count : Nat, first + count ≤ nblocks → readv first count = count * blocksize

-- `off` blocks of `blocksize` bytes are done.
def atBlock (nblocks blocksize off : Nat) : CmaState := ⟨off,(nblocks - off) * blocksize,off * blocksize⟩

def batchActs (liov riov : List IoVec) (size blocksize passes : Nat) : List Act :=
  (List.range passes).map fun i => .processVmReadv liov riov ((i * size : Nat) : Int) size (size * blocksize)

section
variable {more : Int → Bool} {readv : Int → Int → Nat} (liov riov : List IoVec) {nblocks blocksize size : Nat}

theorem cmaStep_more {s : CmaState} {currBlks : Int} (test : more s.iovOff = true) (left : 0 < s.remaining) :
    cmaStep more currBlks readv liov riov s =
      ⟨[.processVmReadv liov riov s.iovOff currBlks (readv s.iovOff currBlks)],
        .ok (.inl ⟨s.iovOff + currBlks,subSize s.remaining (readv s.iovOff currBlks),
          addSize s.totalCopied (readv s.iovOff currBlks)⟩)⟩ := by
  simp only [cmaStep,test,left,and_self,if_true]
  rfl

theorem cmaStep_stop {s : CmaState} {currBlks : Int} (finished : s.remaining = 0 ∨ more s.iovOff = false) :
    cmaStep more currBlks readv liov riov s = ⟨[],.ok (.inr s)⟩ := by
  rcases finished with empty | outside
  · simp only [cmaStep,empty,Nat.lt_irrefl,false_and,if_false]
    rfl
  · simp only [cmaStep,outside,Bool.false_eq_true,and_false,if_false]
    rfl

theorem full_step (test : ∀ i : Nat, i ≤ nblocks → more i = decide (i < nblocks)) (bytes : 0 < blocksize)
    (small : nblocks * blocksize < sizeMod) (transfers : FullTransfers nblocks blocksize readv) (some_blocks : 0 < size)
    (inside : off + size ≤ nblocks) :
    cmaStep more size readv liov riov (atBlock nblocks blocksize off) =
      ⟨[.processVmReadv liov riov off size (size * blocksize)],.ok (.inl (atBlock nblocks blocksize (off + size)))⟩ := by
  have going : more off = true := by rw [test off (by omega)]; simp; omega
  have left : 0 < (nblocks - off) * blocksize := Nat.mul_pos (by omega) bytes
  have whole : (nblocks - off) * blocksize = (nblocks - (off + size)) * blocksize + size * blocksize := by
    rw [← Nat.add_mul]
    congr 1
    omega
  have bound : (nblocks - off) * blocksize ≤ nblocks * blocksize := Nat.mul_le_mul_right _ (Nat.sub_le _ _)
  have done : (off + size) * blocksize ≤ nblocks * blocksize := Nat.mul_le_mul_right _ inside
  rw [Nat.add_mul] at done
  rw [cmaStep_more liov riov (show more (atBlock nblocks blocksize off).iovOff = true from going) left]
  simp only [atBlock,transfers off size inside]
  rw [subSize_exact (by omega) (by omega),addSize_exact (by omega),whole,Nat.add_sub_cancel,Nat.add_mul]
  rfl

theorem passes_visit (test : ∀ i : Nat, i ≤ nblocks → more i = decide (i < nblocks)) (bytes : 0 < blocksize)
    (small : nblocks * blocksize < sizeMod) (transfers : FullTransfers nblocks blocksize readv) (some_blocks : 0 < size)
    (passes : Nat) (inside : passes * size ≤ nblocks) :
    Visits (cmaStep more size readv liov riov) passes (CmaState.start (nblocks * blocksize))
      (batchActs liov riov size blocksize passes) (atBlock nblocks blocksize (passes * size)) := by
  induction passes with
  | zero =>
      have same : atBlock nblocks blocksize (0 * size) = CmaState.start (nblocks * blocksize) := by
        simp [atBlock,CmaState.start]
      rw [same]
      exact .enter
  | succ passes ih =>
      rw [Nat.succ_mul] at inside ⊢
      have step := full_step liov riov test bytes small transfers some_blocks inside
      have visit := (ih (by omega)).pass step
      simpa [batchActs,List.range_succ] using visit

theorem batchActs_batches (size blocksize passes : Nat) :
    batches (batchActs liov riov size blocksize passes) = fullBatches size passes := by
  simp [batches,batchActs,fullBatches,List.filterMap_map]

theorem tiles_of_dvd (test : ∀ i : Nat, i ≤ nblocks → more i = decide (i < nblocks)) (bytes : 0 < blocksize)
    (small : nblocks * blocksize < sizeMod) (transfers : FullTransfers nblocks blocksize readv) (some_blocks : 0 < size)
    (limited : (size : Int) ≤ limit) (divides : size ∣ nblocks) :
    TilesList limit nblocks (nblocks * blocksize) (cmaStep more size readv liov riov) := by
  obtain ⟨passes,rfl⟩ := divides
  rw [Nat.mul_comm size passes] at *
  have visit := passes_visit liov riov test bytes small transfers some_blocks passes (Nat.le_refl _)
  have finished : (atBlock (passes * size) blocksize (passes * size)).remaining = 0 := by simp [atBlock]
  refine ⟨_,_,⟨_,_,_,_,visit,cmaStep_stop liov riov (.inl finished),rfl⟩,?_,rfl,finished⟩
  rw [List.append_nil,batchActs_batches]
  rw [Int.natCast_mul]
  exact fullBatches_tiled (by omega) limited passes

-- Any other batch size leaves a last batch that reaches past the list.
theorem overrun_batch (test : ∀ i : Nat, i ≤ nblocks + size → more i = decide (i < nblocks)) (bytes : 0 < blocksize)
    (small : nblocks * blocksize < sizeMod) (transfers : FullTransfers nblocks blocksize readv) (some_blocks : 0 < size)
    (indivisible : ¬ size ∣ nblocks) :
    ∃ acts s, Ends (cmaStep more size readv liov riov) (CmaState.start (nblocks * blocksize)) acts s ∧
      ∃ first : Nat, ((first : Int),(size : Int)) ∈ batches acts ∧ nblocks < first + size := by
  have parts := Nat.div_add_mod nblocks size
  have part : 0 < nblocks % size := Nat.pos_of_ne_zero fun zero => indivisible (Nat.dvd_of_mod_eq_zero zero)
  have below := Nat.mod_lt nblocks some_blocks
  rw [Nat.mul_comm] at parts
  have visit := passes_visit liov riov (fun i low => test i (by omega)) bytes small transfers some_blocks
    (nblocks / size) (by omega)
  have going : more ((nblocks / size * size : Nat) : Int) = true := by rw [test _ (by omega)]; simp; omega
  have left : 0 < (nblocks - nblocks / size * size) * blocksize := Nat.mul_pos (by omega) bytes
  have outside : more (((nblocks / size * size : Nat) : Int) + size) = false := by
    rw [← Int.natCast_add,test _ (by omega)]
    simp; omega
  have last := @cmaStep_more more readv liov riov (atBlock nblocks blocksize (nblocks / size * size)) size going left
  refine ⟨_,_,⟨_,_,_,_,visit.pass last,cmaStep_stop liov riov (.inr outside),rfl⟩,nblocks / size * size,?_,by omega⟩
  simp [batches,atBlock]

theorem tiles_iff (test : ∀ i : Nat, i ≤ nblocks + size → more i = decide (i < nblocks)) (bytes : 0 < blocksize)
    (small : nblocks * blocksize < sizeMod) (transfers : FullTransfers nblocks blocksize readv) (some_blocks : 0 < size)
    (limited : (size : Int) ≤ limit) :
    TilesList limit nblocks (nblocks * blocksize) (cmaStep more size readv liov riov) ↔ size ∣ nblocks := by
  constructor
  · intro given
    obtain ⟨acts,s,ended,tiled,_⟩ := given
    apply Classical.byContradiction
    intro indivisible
    obtain ⟨others,t,stops,first,member,past⟩ := overrun_batch liov riov test bytes small transfers some_blocks indivisible
    obtain ⟨rfl,_⟩ := ended.unique stops
    have within := tiled.bounded _ member
    simp only at within
    omega
  · exact tiles_of_dvd liov riov (fun i low => test i (by omega)) bytes small transfers some_blocks limited

end

-- The batch size the code picks divides the list just when the list fits in one batch
-- or the limit divides it.
theorem batch_size_dvd (limit nblocks : Nat) (positive : 0 < limit) :
    ((if nblocks < limit then nblocks else limit) ∣ nblocks) ↔ nblocks ≤ limit ∨ limit ∣ nblocks := by
  split
  · rename_i below
    exact ⟨fun _ => .inl (Nat.le_of_lt below),fun _ => Nat.dvd_refl _⟩
  · rename_i above
    refine ⟨.inr,?_⟩
    intro given
    rcases given with most | divides
    · obtain rfl : nblocks = limit := by omega
      exact Nat.dvd_refl _
    · exact divides

theorem bench_size (limit : Nat) (int_blocks : nblocks ≤ intMax) :
    (if (nblocks : Int) < limit then (nblocks : Int) else longToInt limit) =
      ((if nblocks < limit then nblocks else limit : Nat) : Int) := by
  by_cases below : nblocks < limit
  · rw [if_pos (by omega),if_pos below]
  · rw [if_neg (by omega),if_neg below]
    exact toInt_exact (by omega)

theorem dt_size (limit : Nat) (long : limit < 9223372036854775808) (int_blocks : nblocks ≤ intMax) :
    (if nblocks < toSize limit then toInt nblocks else longToInt limit) = ((if nblocks < limit then nblocks else limit : Nat) : Int) := by
  rw [toSize_exact (by simp only [sizeMod]; omega),toInt_exact int_blocks]
  by_cases below : nblocks < limit
  · rw [if_pos below,if_pos below]
  · rw [if_neg below,if_neg below]
    exact toInt_exact (by omega)

-- benchmark_cma and cma_dt.c on a list that main can build, with every transfer complete.
theorem cma_batches_tile (limit nblocks blocksize : Nat) (positive : 1 ≤ limit) (long : limit < 9223372036854775808) (some_blocks : 1 ≤ nblocks)
    (int_blocks : nblocks ≤ intMax) (bytes : 0 < blocksize) (small : nblocks * blocksize < sizeMod)
    (readv : Int → Int → Nat) (transfers : FullTransfers nblocks blocksize readv) (liov riov : List IoVec) :
    (TilesList limit nblocks (nblocks * blocksize) (benchStep limit nblocks readv liov riov) ↔
      nblocks ≤ limit ∨ limit ∣ nblocks) ∧
    (TilesList limit nblocks (nblocks * blocksize) (cmaDtStep limit nblocks readv liov riov) ↔
      nblocks ≤ limit ∨ limit ∣ nblocks) := by
  have large := intMax_lt_sizeMod int_blocks
  have bench := bench_size limit int_blocks
  have standalone := dt_size limit long int_blocks
  have size_pos : 0 < if nblocks < limit then nblocks else limit := by split <;> omega
  have limited : ((if nblocks < limit then nblocks else limit : Nat) : Int) ≤ limit := by split <;> omega
  constructor
  · rw [benchStep,bench,tiles_iff liov riov (fun i _ => by simp) bytes small transfers size_pos limited]
    exact batch_size_dvd limit nblocks positive
  · rw [cmaDtStep,standalone,tiles_iff liov riov (fun i low => ?_) bytes small transfers size_pos limited]
    · exact batch_size_dvd limit nblocks positive
    · rw [toSize_exact]
      split at low <;> simp only [sizeMod,intMax] at * <;> omega

theorem cma_batches_tile_two_full : TilesList 1024 2048 8192
    (benchStep 1024 2048 (fun _ count => count.toNat * 4) (initIov 4096 2048 4) (initIov 65536 2048 4)) :=
  (cma_batches_tile 1024 2048 4 (by decide) (by decide) (by decide) (by decide) (by decide) (by decide)
    (fun _ count => count.toNat * 4) (fun _ _ _ => rfl) _ _).1.mpr (.inr (by decide))

-- One block more than the limit: the second batch takes 1024 entries where one is left.
theorem cma_batches_pass_the_list : ¬ TilesList 1024 1025 4100
    (benchStep 1024 1025 (fun _ count => count.toNat * 4) (initIov 4096 1025 4) (initIov 65536 1025 4)) := by
  have size : (if (1025 : Int) < 1024 then 1025 else longToInt 1024) = ((1024 : Nat) : Int) := by decide
  rw [benchStep,size]
  intro tiles
  have divides := (@tiles_iff _ (fun _ count => count.toNat * 4) (initIov 4096 1025 4) (initIov 65536 1025 4) 1025 4 1024 1024
    (fun i _ => decide_eq_decide.mpr (by omega)) (by decide) (by decide) (fun _ _ _ => rfl) (by decide) (Int.le_refl _)).mp tiles
  exact absurd divides (by decide)

end MpidtBench.CmaBatches
