import MpidtBench.Library.Marked

namespace Traced

-- A list whose stamped entries stand behind as many marks as the stamp says; only these are of the sort.
structure Clocked (mark : α → Bool) (stamp : α → Option Nat) (sort : α → Prop) (n : Nat) (acts : List α) : Prop where
  stands : ∀ before a after j, acts = before ++ a :: after → stamp a = some j → before.countP mark = j ∧ j < n
  most : acts.countP mark ≤ n
  calm : ∀ a ∈ acts, stamp a = none → ¬ sort a

-- Calls one after the other, each of them labelled and with entries of no label behind it: all of them, or as
-- far as some entry of one. `exact` is for calls with as many marks as are allowed.
inductive Called (mark : α → Bool) (stamp : α → Option Nat) (sort : α → Prop) (most : τ → Nat) (exact : Prop) :
    Bool → List τ → List (Option τ × α) → Prop where
  | ended : Called mark stamp sort most exact whole [] []
  | halted : Called mark stamp sort most exact false calls []
  | broken : Clocked mark stamp sort (most c) block → Called mark stamp sort most exact false (c :: calls) (block.map (Prod.mk (some c)))
  | passed : Clocked mark stamp sort (most c) block → (exact → block.countP mark = most c) →
      (∀ a ∈ between, a.1 = none ∧ mark a.2 = false ∧ ¬ sort a.2) → Called mark stamp sort most exact whole calls rest →
      Called mark stamp sort most exact whole (c :: calls) (block.map (Prod.mk (some c)) ++ (between ++ rest))

-- How many marks the calls in front of one may have.
def ticket [DecidableEq τ] (most : τ → Nat) : List τ → τ → Nat
  | [],_ => 0
  | c :: calls,d => if c = d then 0 else most c + ticket most calls d

def allotted (most : τ → Nat) : List τ → Nat
  | [] => 0
  | c :: calls => most c + allotted most calls

section
variable {mark : α → Bool} {stamp : α → Option Nat} {sort : α → Prop} {front middle back : List α} {n : Nat}

theorem loop_at {body : Nat → σ → Run ε α σ} (each : ∀ i s, Marked mark (body i s))
    (stamped : ∀ i s, ∀ a ∈ (body i s).acts, stamp a = some i) (first count : Nat) (s : σ) :
    ∀ before a after j, (forFrom body first count s).acts = before ++ a :: after → stamp a = some j →
      first + before.countP mark = j ∧ j < first + count := by
  induction count generalizing first s with
  | zero =>
      intro before a after j split
      exact absurd split.symm (by simp [forFrom])
  | succ count ih =>
      intro before a after j split known
      have early := marked_early (each first s)
      have own : ∀ rest, (body first s).acts = before ++ a :: rest → first + before.countP mark = j ∧ j < first + (count+1) := by
        intro rest here
        have few := early before a rest here trivial
        have same := stamped first s a (by rw [here]; simp)
        rw [known] at same
        cases same
        omega
      rw [forFrom] at split
      cases reached : (body first s).out with
      | error error =>
          rw [Run.chain_error reached] at split
          exact own after split
      | ok next =>
          rw [Run.chain_ok reached] at split
          rcases append_split split with ⟨rest,here,_⟩ | ⟨rest,rfl,later⟩
          · exact own rest here
          · obtain ⟨count,below⟩ := ih (first+1) next rest a after j later known
            rw [List.countP_append,(marked_count (each first s)).2 next reached]
            omega

theorem clocked_loop {body : Nat → σ → Run ε α σ} (each : ∀ i s, Marked mark (body i s))
    (stamped : ∀ i s, ∀ a ∈ (body i s).acts, stamp a = some i) (count : Nat) (s : σ) :
    Clocked mark stamp sort count (forRange count body s).acts := by
  refine ⟨fun before a after j split known => ?_,(marked_loop each 0 count s).2.1,fun a member unstamped => ?_⟩
  · have position := loop_at each stamped 0 count s before a after j split known
    omega
  · have some_pass : stamp a ≠ none := by
      refine forFrom_acts (fun a => stamp a ≠ none) (fun i s a issued => ?_) a member
      rw [stamped i s a issued]
      exact Option.some_ne_none i
    exact absurd unstamped some_pass

theorem clocked_around (clocked : Clocked mark stamp sort n middle) (ahead : ∀ a ∈ front, mark a = false ∧ stamp a = none ∧ ¬ sort a)
    (behind : ∀ a ∈ back, mark a = false ∧ stamp a = none ∧ ¬ sort a) : Clocked mark stamp sort n (front ++ (middle ++ back)) := by
  have silent : front.countP mark = 0 := unmarked_count fun a member => (ahead a member).1
  refine ⟨fun before a after j split known => ?_,?_,fun a member unstamped => ?_⟩
  · rcases append_split split with ⟨rest,here,_⟩ | ⟨rest,rfl,later⟩
    · rw [(ahead a (by rw [here]; simp)).2.1] at known
      cases known
    · rcases append_split later with ⟨more,here,_⟩ | ⟨more,_,last⟩
      · rw [List.countP_append,silent,Nat.zero_add]
        exact clocked.stands rest a more j here known
      · rw [(behind a (by rw [last]; simp)).2.1] at known
        cases known
  · rw [List.countP_append,List.countP_append,silent,unmarked_count fun a member => (behind a member).1,Nat.zero_add,Nat.add_zero]
    exact clocked.most
  · rcases List.mem_append.mp member with before | later
    · exact (ahead a before).2.2
    · rcases List.mem_append.mp later with inside | last
      · exact clocked.calm a inside unstamped
      · exact (behind a last).2.2

theorem clocked_none : Clocked mark stamp sort n [] :=
  ⟨fun _ _ _ _ split => absurd split.symm (by simp),Nat.zero_le n,fun _ member => absurd member List.not_mem_nil⟩

end

section
variable {mark : α → Bool} {stamp : α → Option Nat} {sort : α → Prop} {most : τ → Nat} {exact : Prop} {whole : Bool}
  {calls more : List τ} {acts others front back : List (Option τ × α)} {c d : τ} {n : Nat}

theorem called_append (first : Called mark stamp sort most exact true calls acts) (second : Called mark stamp sort most exact whole more others) :
    Called mark stamp sort most exact whole (calls ++ more) (acts ++ others) := by
  generalize all : true = done at first
  induction first with
  | ended => exact second
  | halted => cases all
  | broken => cases all
  | passed clocked full between _ ih =>
      rw [List.append_assoc,List.append_assoc]
      exact .passed clocked full between (ih all)

theorem called_stop (first : Called mark stamp sort most exact whole calls acts) (more : List τ) :
    Called mark stamp sort most exact false (calls ++ more) acts := by
  induction first with
  | ended => exact .halted
  | halted => exact .halted
  | broken clocked => exact .broken clocked
  | passed clocked full between _ ih => exact .passed clocked full between ih

theorem block_count (block : List α) (c : τ) :
    (block.map (Prod.mk (some c))).countP (fun a => mark a.2) = block.countP mark := by
  rw [List.countP_map]
  rfl

theorem block_split (mark : α → Bool) {block : List α} {before after : List (Option τ × α)} {tag : Option τ} {a : α}
    (split : block.map (Prod.mk (some c)) = before ++ (tag,a) :: after) :
    tag = some c ∧ ∃ ahead behind, block = ahead ++ a :: behind ∧ before.countP (fun a => mark a.2) = ahead.countP mark := by
  obtain ⟨ahead,last,rfl,rfl,tagged⟩ := List.map_eq_append_iff.mp split
  obtain ⟨b,behind,rfl,same,_⟩ := List.map_eq_cons_iff.mp tagged
  cases same
  exact ⟨rfl,ahead,behind,rfl,block_count ahead c⟩

theorem block_upper {block : List α} {before after : List (Option τ × α)} {tag : Option τ} {a : α} (clocked : Clocked mark stamp sort n block)
    (split : block.map (Prod.mk (some c)) = before ++ (tag,a) :: after) (sorted : sort a) :
    tag = some c ∧ ∃ j, stamp a = some j ∧ j < n ∧ before.countP (fun a => mark a.2) = j := by
  obtain ⟨tagged,ahead,behind,inside,count⟩ := block_split mark split
  obtain ⟨j,known⟩ := Option.ne_none_iff_exists'.mp fun unstamped => clocked.calm a (by rw [inside]; simp) unstamped sorted
  obtain ⟨position,below⟩ := clocked.stands ahead a behind j inside known
  exact ⟨tagged,j,known,below,count.trans position⟩

theorem block_lower {block : List α} {before after : List (Option τ × α)} {a : α} (clocked : Clocked mark stamp sort n block)
    (split : block.map (Prod.mk (some c)) = before ++ (some d,a) :: after) :
    d = c ∧ ∀ j, stamp a = some j → before.countP (fun a => mark a.2) = j := by
  obtain ⟨tagged,ahead,behind,inside,count⟩ := block_split mark split
  exact ⟨Option.some.inj tagged,fun j known => count.trans (clocked.stands ahead a behind j inside known).1⟩

theorem between_count {between : List (Option τ × α)} (quiet : ∀ a ∈ between, a.1 = none ∧ mark a.2 = false ∧ ¬ sort a.2) :
    between.countP (fun a => mark a.2) = 0 := unmarked_count fun a member => (quiet a member).2.1

theorem called_total (called : Called mark stamp sort most exact true calls acts) (exactly : exact) :
    acts.countP (fun a => mark a.2) = allotted most calls := by
  generalize all : true = done at called
  induction called with
  | ended => rfl
  | halted => cases all
  | broken => cases all
  | passed clocked full quiet _ ih =>
      rw [List.countP_append,List.countP_append,block_count,between_count quiet,full exactly,ih all,allotted]
      omega

variable [DecidableEq τ]

-- Of the sort are only entries with a label and a stamp; they stand behind no more marks than their ticket says.
def Upper (mark : α → Bool) (stamp : α → Option Nat) (sort : α → Prop) (most : τ → Nat) (calls : List τ)
    (acts : List (Option τ × α)) : Prop :=
  ∀ before tag a after, acts = before ++ (tag,a) :: after → sort a →
    ∃ c ∈ calls, ∃ j, tag = some c ∧ stamp a = some j ∧ j < most c ∧ before.countP (fun a => mark a.2) ≤ ticket most calls c + j

-- Labelled entries stand behind as many as their ticket says, and by their stamp so many more.
def Lower (mark : α → Bool) (stamp : α → Option Nat) (most : τ → Nat) (calls : List τ) (acts : List (Option τ × α)) : Prop :=
  ∀ before c a after, acts = before ++ (some c,a) :: after → c ∈ calls ∧ ticket most calls c ≤ before.countP (fun a => mark a.2) ∧
    ∀ j, stamp a = some j → before.countP (fun a => mark a.2) = ticket most calls c + j

theorem called_upper (distinct : calls.Nodup) (called : Called mark stamp sort most exact whole calls acts) :
    Upper mark stamp sort most calls acts := by
  induction called with
  | ended => exact fun before tag a after split => absurd split.symm (by simp)
  | halted => exact fun before tag a after split => absurd split.symm (by simp)
  | @broken c calls block clocked =>
      intro before tag a after split sorted
      obtain ⟨rfl,j,known,below,count⟩ := block_upper clocked split sorted
      exact ⟨c,List.mem_cons_self,j,rfl,known,below,by rw [count]; exact Nat.le_add_left j _⟩
  | @passed c block between whole calls rest clocked full quiet called ih =>
      intro before tag a after split sorted
      obtain ⟨absent,later⟩ := List.nodup_cons.mp distinct
      rcases append_split split with ⟨_,here,_⟩ | ⟨front,rfl,behind⟩
      · obtain ⟨rfl,j,known,below,count⟩ := block_upper clocked here sorted
        exact ⟨c,List.mem_cons_self,j,rfl,known,below,by rw [count]; exact Nat.le_add_left j _⟩
      · rcases append_split behind with ⟨_,glued,_⟩ | ⟨last,rfl,tail⟩
        · exact absurd sorted (quiet (tag,a) (by rw [glued]; simp)).2.2
        · obtain ⟨d,member,j,tagged,known,below,count⟩ := ih later last tag a after tail sorted
          refine ⟨d,List.mem_cons_of_mem c member,j,tagged,known,below,?_⟩
          have other : c ≠ d := fun same => absent (same ▸ member)
          rw [List.countP_append,List.countP_append,block_count,between_count quiet,ticket,if_neg other]
          have bound := clocked.most
          omega

theorem called_lower (distinct : calls.Nodup) (called : Called mark stamp sort most exact whole calls acts) (exactly : exact) :
    Lower mark stamp most calls acts := by
  induction called with
  | ended => exact fun before c a after split => absurd split.symm (by simp)
  | halted => exact fun before c a after split => absurd split.symm (by simp)
  | @broken own calls block clocked =>
      intro before c a after split
      obtain ⟨rfl,position⟩ := block_lower clocked split
      rw [ticket,if_pos rfl]
      exact ⟨List.mem_cons_self,Nat.zero_le _,fun j known => by rw [Nat.zero_add]; exact position j known⟩
  | @passed own block between whole calls rest clocked full quiet called ih =>
      intro before c a after split
      obtain ⟨absent,later⟩ := List.nodup_cons.mp distinct
      rcases append_split split with ⟨_,here,_⟩ | ⟨front,rfl,behind⟩
      · obtain ⟨rfl,position⟩ := block_lower clocked here
        rw [ticket,if_pos rfl]
        exact ⟨List.mem_cons_self,Nat.zero_le _,fun j known => by rw [Nat.zero_add]; exact position j known⟩
      · rcases append_split behind with ⟨_,glued,_⟩ | ⟨last,rfl,tail⟩
        · have unlabelled := (quiet (some c,a) (by rw [glued]; simp)).1
          cases unlabelled
        · obtain ⟨member,low,position⟩ := ih later last c a after tail
          have other : own ≠ c := fun same => absent (same ▸ member)
          have passed := full exactly
          refine ⟨List.mem_cons_of_mem own member,?_,fun j known => ?_⟩
          · rw [List.countP_append,List.countP_append,block_count,between_count quiet,ticket,if_neg other]
            omega
          · rw [List.countP_append,List.countP_append,block_count,between_count quiet,ticket,if_neg other,position j known]
            omega

theorem upper_around (upper : Upper mark stamp sort most calls acts) (ahead : ∀ a ∈ front, a.1 = none ∧ mark a.2 = false ∧ ¬ sort a.2)
    (behind : ∀ a ∈ back, a.1 = none ∧ mark a.2 = false ∧ ¬ sort a.2) : Upper mark stamp sort most calls (front ++ (acts ++ back)) := by
  intro before tag a after split sorted
  rcases append_split split with ⟨_,here,_⟩ | ⟨rest,rfl,later⟩
  · exact absurd sorted (ahead (tag,a) (by rw [here]; simp)).2.2
  · rcases append_split later with ⟨more,here,_⟩ | ⟨_,_,last⟩
    · rw [List.countP_append,between_count ahead,Nat.zero_add]
      exact upper rest tag a more here sorted
    · exact absurd sorted (behind (tag,a) (by rw [last]; simp)).2.2

theorem lower_around (lower : Lower mark stamp most calls acts) (ahead : ∀ a ∈ front, a.1 = none ∧ mark a.2 = false)
    (behind : ∀ a ∈ back, a.1 = none) : Lower mark stamp most calls (front ++ (acts ++ back)) := by
  intro before c a after split
  rcases append_split split with ⟨_,here,_⟩ | ⟨rest,rfl,later⟩
  · cases (ahead (some c,a) (by rw [here]; simp)).1
  · rcases append_split later with ⟨more,here,_⟩ | ⟨_,_,last⟩
    · rw [List.countP_append,unmarked_count fun a member => (ahead a member).2,Nat.zero_add]
      exact lower rest c a more here
    · cases behind (some c,a) (by rw [last]; simp)

theorem ticket_mono {fewer : τ → Nat} (each : ∀ c, fewer c ≤ most c) (calls : List τ) (c : τ) :
    ticket fewer calls c ≤ ticket most calls c := by
  induction calls with
  | nil => exact Nat.le_refl 0
  | cons own rest ih =>
      rw [ticket,ticket]
      split
      · exact Nat.le_refl 0
      · exact Nat.add_le_add (each own) ih

theorem ticket_total (member : c ∈ calls) : ticket most calls c + most c ≤ allotted most calls := by
  induction calls with
  | nil => cases member
  | cons own rest ih =>
      rw [allotted,ticket]
      split
      · rename_i same
        rw [same]
        omega
      · rename_i other
        have later := ih ((List.mem_cons.mp member).resolve_left fun same => other same.symm)
        omega

-- In a list in some order, what comes behind a call has a ticket behind all its marks.
theorem ticket_order {number : τ → Nat} (sorted : calls.Pairwise fun c d => number c < number d) (member : c ∈ calls) (later : d ∈ calls)
    (behind : number c < number d) : ticket most calls c + most c ≤ ticket most calls d := by
  induction calls with
  | nil => cases member
  | cons own rest ih =>
      obtain ⟨least,ordered⟩ := List.pairwise_cons.mp sorted
      have apart : own ≠ d := by
        rintro rfl
        rcases List.mem_cons.mp member with rfl | inside
        · omega
        · have above := least c inside
          omega
      have inside := (List.mem_cons.mp later).resolve_left fun same => apart same.symm
      rw [ticket,ticket,if_neg apart]
      split
      · rename_i same
        rw [same]
        omega
      · rename_i other
        have rest := ih ordered ((List.mem_cons.mp member).resolve_left fun same => other same.symm) inside
        omega

end
end Traced

namespace Collective
open Traced

namespace System
variable {sys : System ρ α} {cfg : Config ρ} {r : ρ} {e f : α}

-- What a rank has done, with the calls of a kind in front of it and itself.
theorem finished_behind (done : f ∈ sys.finished cfg r) (k : Kind) : ∃ before after, sys.acts r = before ++ f :: after ∧
    (before ++ [f]).countP (fun a => sys.kind a == some k) ≤ sys.returned cfg r k := by
  obtain ⟨before,after,split⟩ := List.append_of_mem done
  refine ⟨before,after ++ (sys.acts r).drop (cfg r).done,?_,?_⟩
  · rw [← List.cons_append,← List.append_assoc,← split,finished,List.take_append_drop]
  · rw [returned,kinds_count,split,List.append_cons before f after]
    exact (List.sublist_append_left _ _).countP_le

-- What a rank stands at, behind the calls it has entered.
theorem current_behind (here : sys.current cfg r = some e) (quiet : sys.kind e = none) (k : Kind) :
    ∃ after, sys.acts r = sys.finished cfg r ++ e :: after ∧
      sys.entered cfg r k = (sys.finished cfg r).countP fun a => sys.kind a == some k := by
  obtain ⟨bound,same⟩ := List.getElem?_eq_some_iff.mp here
  refine ⟨(sys.acts r).drop ((cfg r).done+1),?_,?_⟩
  · rw [← same,← List.drop_eq_getElem_cons bound,finished,List.take_append_drop]
  · have outside : sys.entered cfg r k = sys.returned cfg r k := by simp [entered,here,quiet]
    rw [outside,returned,kinds_count]

end System
end Collective
