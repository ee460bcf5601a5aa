import MpidtBench.Library.IoVec

namespace ScatterGather

-- Cut `room` bytes off the front of a list: the pieces cut off and what is left.
def drain : Nat → List IoVec → List IoVec × List IoVec
  | _,[] => ([],[])
  | room,v :: rest =>
    if room = 0 then ([],v :: rest)
    else if v.iovLen ≤ room then (v :: (drain (room - v.iovLen) rest).1,(drain (room - v.iovLen) rest).2)
    else ([⟨v.iovBase,room⟩],⟨v.iovBase+room,v.iovLen-room⟩ :: rest)

-- What is left after a number of such cuts, and the pieces each of them took.
def leftAfter (room : Nat) : Nat → List IoVec → List IoVec
  | 0,blocks => blocks
  | rounds+1,blocks => leftAfter room rounds (drain room blocks).2
def chunks (room : Nat) : Nat → List IoVec → List (List IoVec)
  | 0,_ => []
  | rounds+1,blocks => (drain room blocks).1 :: chunks room rounds (drain room blocks).2

def Positive (blocks : List IoVec) : Prop := ∀ v ∈ blocks, 0 < v.iovLen

@[simp] theorem drain_zero (blocks : List IoVec) : drain 0 blocks = ([],blocks) := by
  cases blocks <;> simp [drain]

theorem drain_addrs (room : Nat) (blocks : List IoVec) :
    addrs (drain room blocks).1 ++ addrs (drain room blocks).2 = addrs blocks := by
  induction blocks generalizing room with
  | nil => rfl
  | cons v rest ih =>
      unfold drain
      split
      · rfl
      · split
        · simp [ih]
        · rename_i larger
          have whole : v.iovLen = room + (v.iovLen - room) := by omega
          simp only [addrs_cons,addrs_nil,List.append_nil,← List.append_assoc]
          rw [List.range'_append_1,← whole]

theorem drain_total (room : Nat) (blocks : List IoVec) :
    total (drain room blocks).1 = min room (total blocks) ∧
      total (drain room blocks).1 + total (drain room blocks).2 = total blocks := by
  induction blocks generalizing room with
  | nil => simp [drain]
  | cons v rest ih =>
      obtain ⟨taken,kept⟩ := ih (room - v.iovLen)
      unfold drain
      split
      · rename_i full; subst full; simp
      · split
        · simp only [total_cons]; omega
        · simp only [total_cons,total_nil]; omega

theorem drain_positive (positive : Positive blocks) (room : Nat) :
    Positive (drain room blocks).1 ∧ Positive (drain room blocks).2 := by
  induction blocks generalizing room with
  | nil => exact ⟨nofun,nofun⟩
  | cons v rest ih =>
      have tail : Positive rest := fun w member => positive w (List.mem_cons_of_mem _ member)
      obtain ⟨first,second⟩ := ih tail (room - v.iovLen)
      unfold drain
      split
      · exact ⟨nofun,positive⟩
      · rename_i room_pos
        split
        · refine ⟨?_,second⟩
          rintro w (_ | ⟨_,later⟩)
          · exact positive _ (by simp)
          · exact first w later
        · refine ⟨?_,?_⟩
          · intro w member
            simp only [List.mem_singleton] at member
            subst member
            exact Nat.pos_of_ne_zero room_pos
          · rintro w (_ | ⟨_,later⟩)
            · change 0 < v.iovLen - room; omega
            · exact tail w later

-- Two lists of the same block sizes are cut at the same places.
theorem drain_lens (same : first.map IoVec.iovLen = second.map IoVec.iovLen) (room : Nat) :
    (drain room first).1.map IoVec.iovLen = (drain room second).1.map IoVec.iovLen ∧
      (drain room first).2.map IoVec.iovLen = (drain room second).2.map IoVec.iovLen := by
  induction first generalizing second room with
  | nil =>
      have empty : second = [] := by simpa using same.symm
      subst empty; exact ⟨rfl,rfl⟩
  | cons v rest ih =>
      cases second with
      | nil => cases same
      | cons w others =>
          simp only [List.map_cons,List.cons.injEq] at same
          obtain ⟨taken,kept⟩ := ih same.2 (room - w.iovLen)
          unfold drain
          rw [same.1]
          split
          · simp [same]
          · split
            · simp [same.1,taken,kept]
            · simp [same.2]

theorem leftAfter_total (room rounds : Nat) (blocks : List IoVec) :
    total (leftAfter room rounds blocks) = total blocks - rounds * room := by
  induction rounds generalizing blocks with
  | zero => simp [leftAfter]
  | succ rounds ih =>
      obtain ⟨taken,kept⟩ := drain_total room blocks
      rw [leftAfter,ih,Nat.succ_mul]
      omega

theorem leftAfter_positive (positive : Positive blocks) (room rounds : Nat) : Positive (leftAfter room rounds blocks) := by
  induction rounds generalizing blocks with
  | zero => exact positive
  | succ rounds ih => exact ih (drain_positive positive room).2

theorem chunks_addrs (room rounds : Nat) (blocks : List IoVec) :
    (chunks room rounds blocks).flatMap addrs ++ addrs (leftAfter room rounds blocks) = addrs blocks := by
  induction rounds generalizing blocks with
  | zero => rfl
  | succ rounds ih => rw [chunks,leftAfter,List.flatMap_cons,List.append_assoc,ih,drain_addrs]

theorem chunks_length (room rounds : Nat) (blocks : List IoVec) : (chunks room rounds blocks).length = rounds := by
  induction rounds generalizing blocks with
  | zero => rfl
  | succ rounds ih => simp [chunks,ih]

theorem chunks_lens (same : first.map IoVec.iovLen = second.map IoVec.iovLen) (room rounds : Nat) :
    (chunks room rounds first).map (·.map IoVec.iovLen) = (chunks room rounds second).map (·.map IoVec.iovLen) := by
  induction rounds generalizing first second with
  | zero => rfl
  | succ rounds ih =>
      obtain ⟨taken,kept⟩ := drain_lens same room
      simp [chunks,taken,ih kept]

-- While enough bytes are there, every cut takes exactly `room` of them.
theorem chunks_total (enough : rounds * room ≤ total blocks) :
    ∀ pieces ∈ chunks room rounds blocks, total pieces = room := by
  induction rounds generalizing blocks with
  | zero => exact nofun
  | succ rounds ih =>
      obtain ⟨taken,kept⟩ := drain_total room blocks
      rw [Nat.succ_mul] at enough
      rintro pieces (_ | ⟨_,later⟩)
      · omega
      · exact ih (by omega) pieces later

theorem drain_length (room : Nat) (blocks : List IoVec) :
    (drain room blocks).1.length + (drain room blocks).2.length ≤ blocks.length + 1 := by
  induction blocks generalizing room with
  | nil => simp [drain]
  | cons v rest ih =>
      have bound := ih (room - v.iovLen)
      unfold drain
      split
      · simp
      · split
        · simp only [List.length_cons]; omega
        · simp only [List.length_cons,List.length_nil]; omega

theorem chunks_pieces (room rounds : Nat) (blocks : List IoVec) :
    ((chunks room rounds blocks).map List.length).sum + (leftAfter room rounds blocks).length ≤ blocks.length + rounds := by
  induction rounds generalizing blocks with
  | zero => simp [chunks,leftAfter]
  | succ rounds ih =>
      have first := drain_length room blocks
      have rest := ih (drain room blocks).2
      simp only [chunks,leftAfter,List.map_cons,List.sum_cons]
      omega

theorem total_zero_iff (positive : Positive blocks) : total blocks = 0 ↔ blocks = [] := by
  constructor
  · intro empty
    cases blocks with
    | nil => rfl
    | cons v rest =>
        have head := positive v (by simp)
        simp only [total_cons] at empty
        omega
  · rintro rfl; rfl

end ScatterGather
