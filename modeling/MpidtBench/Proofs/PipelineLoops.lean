import MpidtBench.Library.Chunks
import MpidtBench.Model.Pipeline

namespace MpidtBench.PipelineLoops
open Traced CInteger ScatterGather ByteMemory MpidtBench

def ofCopy (copy : Copy) : Act := .memcpy copy.dst copy.src copy.len

def chunkCopy : Role → Nat → IoVec → Int → Int → Nat → Act
  | .sender => toChunk
  | .receiver => fromChunk
def copies : Role → Nat → Nat → List IoVec → List Copy
  | .sender => packCopies
  | .receiver => unpackCopies

theorem roleStep_pip (role : Role) (shmemPtr : Nat) : roleStep role shmemPtr = pipStep role (chunkCopy role shmemPtr) := by
  cases role <;> rfl

theorem copies_append (role : Role) (ptr offset : Nat) (first second : List IoVec) :
    copies role ptr offset (first ++ second) = copies role ptr offset first ++ copies role ptr (offset+total first) second := by
  cases role with
  | sender => exact packCopies_append _ _ _ _
  | receiver => exact unpackCopies_append _ _ _ _

theorem chunkCopy_piece (role : Role) (ptr moved off len : Nat) (v : IoVec) :
    [chunkCopy role ptr v off moved len] = (copies role ptr moved [⟨v.iovBase+off,len⟩]).map ofCopy := by
  cases role <;> simp [chunkCopy,copies,toChunk,fromChunk,packCopies,unpackCopies,ofCopy,advance_nat]

-- The loop variables against the list of what is still to be moved: `moved` bytes are
-- done, the cursor stands `iov_off` bytes into block `iovcnt`.
structure Tracks (liov : List IoVec) (s : PipState) (blocks : List IoVec) (moved : Nat) : Prop where
  shm : s.shmOff = moved
  read : s.nread = moved
  sum : moved + total blocks = total liov
  cursor : ∃ i off : Nat, s.iovcnt = i ∧ s.iovOff = off ∧
    ((blocks = [] ∧ i = liov.length ∧ off = 0) ∨
      ∃ v, liov[i]? = some v ∧ off < v.iovLen ∧ blocks = ⟨v.iovBase+off,v.iovLen-off⟩ :: liov.drop (i+1))

section
variable {role : Role} {ptr full : Nat} {liov : List IoVec} {niov : Int} {s : PipState}
  {blocks rest : List IoVec} {w : IoVec} {moved : Nat}

theorem start_tracks (positive : Positive liov) : Tracks liov (PipState.start full) liov 0 := by
  refine ⟨rfl,rfl,by simp,0,0,rfl,rfl,?_⟩
  cases liov with
  | nil => exact .inl ⟨rfl,rfl,rfl⟩
  | cons v rest => exact .inr ⟨v,rfl,positive v (by simp),by simp⟩

-- Advancing past the last block leaves nothing, past any other one the list behind it.
theorem next_block (positive : Positive liov) (i : Nat) (inside : i < liov.length) :
    (liov.drop (i+1) = [] ∧ i+1 = liov.length ∧ (0:Nat) = 0) ∨
      ∃ v, liov[i+1]? = some v ∧ 0 < v.iovLen ∧ liov.drop (i+1) = ⟨v.iovBase+0,v.iovLen-0⟩ :: liov.drop (i+1+1) := by
  by_cases last : i + 1 = liov.length
  · exact .inl ⟨by rw [last,List.drop_length],last,rfl⟩
  · have bound : i + 1 < liov.length := by omega
    refine .inr ⟨liov[i+1],by simp [bound],positive _ (List.getElem_mem bound),?_⟩
    rw [List.drop_eq_getElem_cons bound]
    rfl

theorem pass_whole (positive : Positive liov) (small : total liov ≤ intMax) (room : s.capacity < sizeMod)
    (tracks : Tracks liov s (w :: rest) moved) (fits : w.iovLen ≤ s.capacity) :
    ∃ t, pipPass (chunkCopy role ptr) liov s = ⟨(copies role ptr moved [w]).map ofCopy,.ok t⟩ ∧
      Tracks liov t rest (moved + w.iovLen) ∧ t.capacity = s.capacity - w.iovLen ∧ t.head = s.head := by
  obtain ⟨shm,read,sum,i,off,count,offset,choice⟩ := tracks
  rcases choice with ⟨empty,_,_⟩ | ⟨v,known,inside,equal⟩
  · cases empty
  injection equal with front behind
  subst front behind
  have bound : i < liov.length := (List.getElem?_eq_some_iff.mp known).1
  simp only [total_cons] at sum
  simp only at fits
  have lens := member_le_total (List.mem_of_getElem? known)
  have large := intMax_lt_sizeMod small
  have length : subSize v.iovLen (toSize (off : Int)) = v.iovLen - off := by
    rw [toSize_exact (by omega),subSize_exact (by omega) (by omega)]
  refine ⟨⟨s.head,s.iovcnt+1,0,((moved + (v.iovLen-off) : Nat) : Int),s.capacity - (v.iovLen-off),moved + (v.iovLen-off)⟩,?_,?_,rfl,rfl⟩
  · rw [← chunkCopy_piece]
    simp only [pipPass,count,shm,read,offset,readAt_some known,Run.pure_chain,length,if_pos fits,Run.emit_chain,
      Run.pure_acts,Run.pure_out]
    rw [toInt_addSize (by omega),addSize_exact (by omega),subSize_exact fits room]
  · exact ⟨rfl,rfl,by simp only; omega,i+1,0,by simp [count],rfl,next_block positive i bound⟩

theorem pass_part (small : total liov ≤ intMax) (tracks : Tracks liov s (w :: rest) moved)
    (larger : s.capacity < w.iovLen) :
    ∃ t, pipPass (chunkCopy role ptr) liov s =
        ⟨(copies role ptr moved [⟨w.iovBase,s.capacity⟩]).map ofCopy,.ok t⟩ ∧
      Tracks liov t (⟨w.iovBase+s.capacity,w.iovLen-s.capacity⟩ :: rest) (moved + s.capacity) ∧
      t.capacity = 0 ∧ t.head = s.head := by
  obtain ⟨shm,read,sum,i,off,count,offset,choice⟩ := tracks
  rcases choice with ⟨empty,_,_⟩ | ⟨v,known,inside,equal⟩
  · cases empty
  injection equal with front behind
  subst front behind
  simp only [total_cons] at sum
  simp only at larger
  have lens := member_le_total (List.mem_of_getElem? known)
  have large := intMax_lt_sizeMod small
  have length : subSize v.iovLen (toSize (off : Int)) = v.iovLen - off := by
    rw [toSize_exact (by omega),subSize_exact (by omega) (by omega)]
  refine ⟨⟨s.head,s.iovcnt,((off + s.capacity : Nat) : Int),((moved + s.capacity : Nat) : Int),0,moved + s.capacity⟩,?_,?_,rfl,rfl⟩
  · rw [← chunkCopy_piece]
    simp only [pipPass,count,shm,read,offset,readAt_some known,Run.pure_chain,length,
      if_neg (Nat.not_le.mpr larger),Run.emit_chain,Run.pure_acts,Run.pure_out]
    rw [toInt_addSize (by omega),toInt_addSize (by omega),addSize_exact (by omega),
      subSize_exact (Nat.le_refl _) (by omega),Nat.sub_self]
  · refine ⟨rfl,rfl,by simp only [total_cons]; omega,i,off+s.capacity,count,rfl,.inr ⟨v,known,by omega,?_⟩⟩
    simp only [Nat.sub_sub,Nat.add_assoc]

theorem step_inner (inner : s.head = .inner) (room : 0 < s.capacity)
    (passed : pipPass (chunkCopy role ptr) liov s = ⟨acts,.ok t⟩) :
    pipStep role (chunkCopy role ptr) full liov niov s = ⟨acts,.ok (.inl t)⟩ := by
  simp [pipStep,inner,room,passed]

-- The inner loop drains a chunk off the list of what is left.
theorem fill_chunk (positive : Positive liov) (small : total liov ≤ intMax) (room : s.capacity < sizeMod)
    (inner : s.head = .inner) (tracks : Tracks liov s blocks moved) :
    ∃ k t, Visits (pipStep role (chunkCopy role ptr) full liov niov) k s
        ((copies role ptr moved (drain s.capacity blocks).1).map ofCopy) t ∧
      k = (drain s.capacity blocks).1.length ∧
      Tracks liov t (drain s.capacity blocks).2 (moved + total (drain s.capacity blocks).1) ∧
      t.capacity = s.capacity - total (drain s.capacity blocks).1 ∧ t.head = .inner := by
  induction blocks generalizing s moved with
  | nil =>
      refine ⟨0,s,?_,rfl,tracks,by simp [drain],inner⟩
      cases role <;> exact .enter
  | cons w rest ih =>
      by_cases empty : s.capacity = 0
      · rw [empty,drain_zero]
        refine ⟨0,s,?_,rfl,tracks,by simp [empty],inner⟩
        cases role <;> exact .enter
      have more : 0 < s.capacity := Nat.pos_of_ne_zero empty
      by_cases fits : w.iovLen ≤ s.capacity
      · obtain ⟨t,passed,next,left,head⟩ := @pass_whole role ptr _ _ _ _ _ positive small room tracks fits
        obtain ⟨k,u,visit,count,last,capacity,stays⟩ := ih (by omega) (head.trans inner) next
        have taken : drain s.capacity (w :: rest) =
            (w :: (drain t.capacity rest).1,(drain t.capacity rest).2) := by
          rw [left,drain,if_neg empty,if_pos fits]
        rw [taken]
        refine ⟨1+k,u,?_,by simp [count,Nat.add_comm],?_,?_,stays⟩
        · have whole := (Visits.single (step_inner inner more passed)).trans visit
          rw [← List.map_append] at whole
          rw [show w :: (drain t.capacity rest).1 = [w] ++ (drain t.capacity rest).1 from rfl,copies_append]
          simpa using whole
        · simpa [Nat.add_assoc] using last
        · simp only [total_cons]; omega
      · obtain ⟨t,passed,next,left,head⟩ := @pass_part role ptr _ _ _ _ _ small tracks (by omega)
        have taken : drain s.capacity (w :: rest) =
            ([⟨w.iovBase,s.capacity⟩],⟨w.iovBase+s.capacity,w.iovLen-s.capacity⟩ :: rest) := by
          rw [drain,if_neg empty,if_neg fits]
        rw [taken]
        exact ⟨1,t,Visits.single (step_inner inner more passed),rfl,by simpa using next,by simp [left],head.trans inner⟩

-- The receiver's Bcast opens a round, the sender's closes it.
def entry : Role → List Act
  | .sender => []
  | .receiver => [.bcast .dummy 1]
def exit : Role → List Act
  | .sender => [.bcast .dummy 1]
  | .receiver => []
def roundActs (role : Role) (ptr moved : Nat) (pieces : List IoVec) : List Act :=
  entry role ++ (copies role ptr moved pieces).map ofCopy ++ exit role
def roundsActs (role : Role) (ptr : Nat) : Nat → List (List IoVec) → List Act
  | _,[] => []
  | moved,pieces :: rest => roundActs role ptr moved pieces ++ roundsActs role ptr (moved + total pieces) rest

-- Everything one head test of the loops can do.
theorem step_cases {copy : IoVec → Int → Int → Nat → Act} {acts : List Act} {t : PipState}
    (stepped : pipStep role copy full liov niov s = ⟨acts,.ok (.inl t)⟩) :
    (s.head = .outer ∧ s.iovcnt < niov ∧ acts = entry role ∧ t = {s with capacity := full,head := .inner}) ∨
      (s.head = .inner ∧ s.capacity = 0 ∧ acts = exit role ∧ t = {s with head := .outer}) ∨
      (s.head = .inner ∧ 0 < s.capacity ∧ pipPass copy liov s = ⟨acts,.ok t⟩) := by
  unfold pipStep at stepped
  split at stepped
  · rename_i head
    split at stepped
    · rename_i more
      cases role with
      | sender => cases stepped; exact .inl ⟨head,more,rfl,rfl⟩
      | receiver => cases stepped; exact .inl ⟨head,more,rfl,rfl⟩
    · cases stepped
  · rename_i head
    split at stepped
    · rename_i room
      cases passed : pipPass copy liov s with
      | mk issued out =>
          rw [passed] at stepped
          cases out with
          | error error => cases stepped
          | ok next =>
              have acts_eq : issued ++ [] = acts := congrArg Run.acts stepped
              have next_eq : next = t := by simpa using congrArg Run.out stepped
              exact .inr (.inr ⟨head,room,by rw [← acts_eq,List.append_nil,next_eq]⟩)
    · rename_i empty
      cases role with
      | sender => cases stepped; exact .inr (.inl ⟨head,by omega,rfl,rfl⟩)
      | receiver => cases stepped; exact .inr (.inl ⟨head,by omega,rfl,rfl⟩)

theorem pass_head {copy : IoVec → Int → Int → Nat → Act} {acts : List Act} {t : PipState}
    (passed : pipPass copy liov s = ⟨acts,.ok t⟩) : t.head = s.head := by
  unfold pipPass at passed
  cases found : (readAt liov s.iovcnt : Run Fault Act IoVec) with
  | mk issued out =>
      rw [found] at passed
      cases out with
      | error error => cases passed
      | ok v =>
          simp only [Run.ok_chain] at passed
          split at passed <;> cases passed <;> rfl

theorem tracks_more (tracks : Tracks liov s blocks moved) : s.iovcnt < liov.length ↔ blocks ≠ [] := by
  obtain ⟨_,_,_,i,off,count,_,choice⟩ := tracks
  rw [count]
  rcases choice with ⟨rfl,rfl,_⟩ | ⟨v,known,_,rfl⟩
  · simp
  · have bound := (List.getElem?_eq_some_iff.mp known).1
    simp [bound]

theorem tracks_frame (tracks : Tracks liov s blocks moved) (capacity : Nat) (head : PipHead) :
    Tracks liov {s with capacity := capacity,head := head} blocks moved :=
  ⟨tracks.shm,tracks.read,tracks.sum,tracks.cursor⟩

theorem step_enter (outer : s.head = .outer) (tracks : Tracks liov s blocks moved) (more : blocks ≠ []) :
    pipStep role (chunkCopy role ptr) full liov liov.length s =
      ⟨entry role,.ok (.inl {s with capacity := full,head := .inner})⟩ := by
  have left := (tracks_more tracks).mpr more
  cases role with
  | sender => simp [pipStep,outer,left,entry]; rfl
  | receiver => simp [pipStep,outer,left,entry]

theorem step_leave (inner : s.head = .inner) (filled : s.capacity = 0) :
    pipStep role (chunkCopy role ptr) full liov niov s = ⟨exit role,.ok (.inl {s with head := .outer})⟩ := by
  cases role with
  | sender => simp [pipStep,inner,filled,exit]
  | receiver => simp [pipStep,inner,filled,exit]; rfl

theorem round_visits (positive : Positive liov) (small : total liov ≤ intMax) (room : full < sizeMod)
    (nonzero : 0 < full) (outer : s.head = .outer) (tracks : Tracks liov s blocks moved) (enough : full ≤ total blocks) :
    ∃ t, Visits (pipStep role (chunkCopy role ptr) full liov liov.length) ((drain full blocks).1.length + 2) s
        (roundActs role ptr moved (drain full blocks).1) t ∧
      Tracks liov t (drain full blocks).2 (moved + full) ∧ t.head = .outer ∧ t.capacity = 0 := by
  have more : blocks ≠ [] := by
    rintro rfl
    simp only [total_nil] at enough; omega
  obtain ⟨taken,_⟩ := drain_total full blocks
  have whole : total (drain full blocks).1 = full := by omega
  obtain ⟨k,t,visit,count,next,left,inner⟩ := @fill_chunk role ptr full liov liov.length
    {s with capacity := full,head := .inner} blocks moved positive small room rfl (tracks_frame tracks _ _)
  simp only [whole] at visit count next left
  have filled : t.capacity = 0 := by omega
  have path := ((Visits.single (step_enter outer tracks more)).trans visit).trans
    (Visits.single (step_leave inner filled))
  refine ⟨_,?_,tracks_frame next _ _,rfl,filled⟩
  rw [count,show 1 + (drain full blocks).1.length + 1 = (drain full blocks).1.length + 2 by omega] at path
  exact path

def tests (room rounds : Nat) (blocks : List IoVec) : Nat :=
  ((chunks room rounds blocks).map fun pieces => pieces.length + 2).sum

theorem rounds_visit (positive : Positive liov) (small : total liov ≤ intMax) (room : full < sizeMod)
    (nonzero : 0 < full) (rounds : Nat) (outer : s.head = .outer) (tracks : Tracks liov s blocks moved)
    (enough : rounds * full ≤ total blocks) :
    ∃ t, Visits (pipStep role (chunkCopy role ptr) full liov liov.length) (tests full rounds blocks) s
        (roundsActs role ptr moved (chunks full rounds blocks)) t ∧
      Tracks liov t (leftAfter full rounds blocks) (moved + rounds * full) ∧ t.head = .outer ∧
      (0 < rounds → t.capacity = 0) := by
  induction rounds generalizing s blocks moved with
  | zero => exact ⟨s,.enter,by simpa [leftAfter] using tracks,outer,nofun⟩
  | succ rounds ih =>
      rw [Nat.succ_mul] at enough
      obtain ⟨t,visit,next,head,filled⟩ := @round_visits role ptr full liov s blocks moved positive small room nonzero
        outer tracks (by omega)
      obtain ⟨taken,kept⟩ := drain_total full blocks
      obtain ⟨u,later,last,top,emptied⟩ := ih head next (by omega)
      have whole : total (drain full blocks).1 = full := by omega
      refine ⟨u,?_,?_,top,?_⟩
      · have path := visit.trans later
        simp only [chunks,roundsActs,tests,List.map_cons,List.sum_cons,whole]
        exact path
      · rw [show moved + (rounds+1) * full = moved + full + rounds * full by rw [Nat.succ_mul]; omega]
        exact last
      · intro _
        by_cases first : rounds = 0
        · subst first
          cases later
          exact filled
        · exact emptied (by omega)

theorem tracks_finished (tracks : Tracks liov s [] moved) :
    s.iovcnt = liov.length ∧ s.iovOff = 0 ∧ s.nread = total liov ∧ s.shmOff = total liov := by
  obtain ⟨shm,read,sum,i,off,count,offset,choice⟩ := tracks
  simp only [total_nil,Nat.add_zero] at sum
  rcases choice with ⟨_,rfl,rfl⟩ | ⟨v,_,_,equal⟩
  · exact ⟨count,offset,by omega,by omega⟩
  · cases equal

-- A complete run, when the depth divides the total.
theorem loops_end (positive : Positive liov) (small : total liov ≤ intMax) (room : full < sizeMod)
    (nonzero : 0 < full) (divides : full ∣ total liov) :
    ∃ s, Visits (pipStep role (chunkCopy role ptr) full liov liov.length) (tests full (total liov / full) liov)
        (PipState.start full) (roundsActs role ptr 0 (chunks full (total liov / full) liov)) s ∧
      pipStep role (chunkCopy role ptr) full liov liov.length s = ⟨[],.ok (.inr s)⟩ ∧
      s.iovcnt = liov.length ∧ s.iovOff = 0 ∧ s.nread = total liov ∧ s.shmOff = total liov := by
  have product := Nat.div_mul_cancel divides
  obtain ⟨s,visit,tracks,outer,_⟩ := @rounds_visit role ptr full liov (PipState.start full) liov 0 positive small room
    nonzero (total liov / full) rfl (start_tracks positive) (by omega)
  have nothing : leftAfter full (total liov / full) liov = [] := by
    rw [← total_zero_iff (leftAfter_positive positive _ _),leftAfter_total]
    omega
  rw [nothing] at tracks
  obtain ⟨count,offset,read,shm⟩ := tracks_finished tracks
  refine ⟨s,visit,?_,count,offset,read,shm⟩
  simp only [pipStep,outer,count,Int.lt_irrefl,if_false]
  rfl

-- Otherwise the last round runs past the list with part of its capacity unused.
theorem loops_break (positive : Positive liov) (small : total liov ≤ intMax) (room : full < sizeMod)
    (nonzero : 0 < full) (indivisible : ¬ full ∣ total liov) :
    ∃ k s, Visits (pipStep role (chunkCopy role ptr) full liov liov.length) k (PipState.start full)
        (roundsActs role ptr 0 (chunks full (total liov / full) liov) ++ (entry role ++
          (copies role ptr (total liov / full * full)
            (drain full (leftAfter full (total liov / full) liov)).1).map ofCopy)) s ∧
      total (drain full (leftAfter full (total liov / full) liov)).1 = total liov % full ∧
      pipStep role (chunkCopy role ptr) full liov liov.length s = ⟨[],.error (.outOfBounds liov.length)⟩ ∧
      s.head = .inner ∧ s.iovcnt = liov.length ∧ s.nread = total liov ∧
      s.capacity = full - total liov % full ∧ 0 < s.capacity := by
  have division := Nat.div_add_mod (total liov) full
  have remainder := Nat.mod_lt (total liov) nonzero
  have leftover : total liov % full ≠ 0 := fun zero => indivisible (Nat.dvd_of_mod_eq_zero zero)
  rw [Nat.mul_comm] at division
  obtain ⟨s,visit,tracks,outer,_⟩ := @rounds_visit role ptr full liov (PipState.start full) liov 0 positive small room
    nonzero (total liov / full) rfl (start_tracks positive) (by omega)
  have rest := leftAfter_total full (total liov / full) liov
  have more : leftAfter full (total liov / full) liov ≠ [] := by
    intro empty
    rw [empty,total_nil] at rest; omega
  obtain ⟨taken,kept⟩ := drain_total full (leftAfter full (total liov / full) liov)
  obtain ⟨k,t,filled,_,next,left,inner⟩ := @fill_chunk role ptr full liov liov.length
    {s with capacity := full,head := .inner} _ _ positive small room rfl (tracks_frame tracks _ _)
  have nothing : (drain full (leftAfter full (total liov / full) liov)).2 = [] := by
    rw [← total_zero_iff (drain_positive (leftAfter_positive positive _ _) _).2]
    omega
  simp only [nothing,Nat.zero_add] at filled next left
  obtain ⟨count,_,read,_⟩ := tracks_finished next
  refine ⟨_,t,visit.trans ((Visits.single (step_enter outer tracks more)).trans filled),by omega,?_,inner,count,read,
    by omega,by omega⟩
  have open_room : 0 < t.capacity := by omega
  simp [pipStep,inner,open_room,pipPass,count,readAt_end (Nat.le_refl _)]
  rfl

end
end MpidtBench.PipelineLoops
