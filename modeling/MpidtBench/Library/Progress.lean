import Mathlib.Algebra.BigOperators.Fin
import Mathlib.Algebra.Order.BigOperators.Group.Finset
import MpidtBench.Library.Windows

namespace Collective
namespace System

def Through (sys : System ρ α) (cfg : Config ρ) (r : ρ) : Prop := (cfg r).done = (sys.acts r).length

section
variable (sys : System ρ α) [DecidableEq ρ]

inductive Leads : Config ρ → Nat → Config ρ → Prop where
  | stay : Leads cfg 0 cfg
  | step : Step sys cfg middle → Leads middle n next → Leads cfg (n+1) next

-- Nothing holds a system up for ever: where no rank can move all are through, and a run
-- has no more steps than twice what there is to do.
structure Finishes [Fintype ρ] : Prop where
  live : ∀ cfg, Reached sys cfg → (∀ r, sys.Through cfg r) ∨ ∃ next, Step sys cfg next
  bounded : ∀ n cfg, Leads sys (fun _ => ⟨0,false⟩) n cfg → n ≤ ∑ r, 2 * (sys.acts r).length

-- What a rank has left to do, a call counting for its entry and its return.
def remaining (cfg : Config ρ) (r : ρ) : Nat := 2 * ((sys.acts r).length - (cfg r).done) - (cfg r).inside.toNat

end

variable {sys : System ρ α} {cfg next : Config ρ} {r q : ρ} {k : Kind} {a : α}

theorem through_left (through : sys.Through cfg r) : sys.left cfg r = (sys.schedule r).length := by
  rw [left,finished,through,List.take_length]
  rfl

-- A call that does not return waits for a rank that has entered too few of its kind.
theorem held_by (held : ¬ sys.MayReturn cfg r k) : ∃ q, sys.entered cfg q k ≤ sys.returned cfg r k := by
  cases k with
  | bcast =>
      simp only [MayReturn,not_or,Nat.not_lt] at held
      exact ⟨sys.root,held.2⟩
  | gather =>
      simp only [MayReturn,not_or,not_forall,Nat.not_lt] at held
      exact held.2
  | barrier =>
      simp only [MayReturn,not_forall,Nat.not_lt] at held
      exact held

theorem held_behind (ordered : Ordered sys cfg) (uniform : sys.schedule q = sys.schedule r) (here : (sys.schedule r)[sys.left cfg r]? = some k)
    (few : sys.entered cfg q k ≤ sys.returned cfg r k) : sys.begun cfg q ≤ sys.left cfg r := by
  apply Classical.byContradiction
  intro past
  have more : ((sys.schedule r).take (sys.left cfg r + 1)).count k ≤ ((sys.schedule r).take (sys.begun cfg q)).count k :=
    List.Sublist.count_le k (List.take_sublist_take_left (by omega))
  rw [returned_take,entered_take ordered,uniform] at few
  rw [List.take_add_one,here,Option.toList_some,List.count_append,List.count_singleton_self] at more
  omega

variable [DecidableEq ρ]

theorem reached_bounds (reach : Reached sys cfg) (r : ρ) : (cfg r).done ≤ (sys.acts r).length := by
  induction reach with
  | start => exact Nat.zero_le _
  | step _ step ih =>
      have within : ∀ {cfg mover a}, sys.current cfg mover = some a → (cfg mover).done < (sys.acts mover).length :=
        fun known => (List.getElem?_eq_some_iff.mp known).1
      cases step with
      | @act mover _ known _ _ =>
          by_cases same : r = mover
          · subst same; rw [put_same]; exact within known
          · rw [put_other same]; exact ih
      | @enter mover _ _ known _ _ =>
          by_cases same : r = mover
          · subst same; rw [put_same]; exact Nat.le_of_lt (within known)
          · rw [put_other same]; exact ih
      | @leave mover _ _ known _ _ _ =>
          by_cases same : r = mover
          · subst same; rw [put_same]; exact within known
          · rw [put_other same]; exact ih

-- Where nothing moves, a rank that is not through stands in a call that may not return.
theorem stuck_stands (reach : Reached sys cfg) (stuck : ∀ next, ¬ Step sys cfg next) (pending : ¬ sys.Through cfg r) :
    ∃ k, (sys.schedule r)[sys.left cfg r]? = some k ∧ (cfg r).inside = true ∧ ¬ sys.MayReturn cfg r k := by
  have low : (cfg r).done < (sys.acts r).length := Nat.lt_of_le_of_ne (reached_bounds reach r) pending
  have known : sys.current cfg r = some (sys.acts r)[(cfg r).done] := List.getElem?_eq_getElem low
  cases inside : (cfg r).inside with
  | false =>
      exfalso
      cases call : sys.kind (sys.acts r)[(cfg r).done] with
      | none => exact stuck _ (.act known call inside)
      | some k => exact stuck _ (.enter known call inside)
  | true =>
      obtain ⟨a,k,here,call⟩ := (reached_ordered reach).valid r inside
      refine ⟨k,?_,rfl,fun allowed => stuck _ (.leave here call inside allowed)⟩
      exact located_call call (current_located here)

-- Ranks that all make the same calls: one of those that are furthest behind can move.
theorem uniform_live (uniform : ∀ r, sys.schedule r = sys.schedule sys.root) (reach : Reached sys cfg)
    (stuck : ∀ next, ¬ Step sys cfg next) (r : ρ) : sys.Through cfg r := by
  have none_behind : ∀ n r, sys.left cfg r = n → sys.Through cfg r := by
    intro n
    induction n using Nat.strong_induction_on with
    | _ n ih =>
        intro r place
        apply Classical.byContradiction
        intro pending
        obtain ⟨k,here,_,held⟩ := stuck_stands reach stuck pending
        obtain ⟨q,few⟩ := held_by held
        have same : sys.schedule q = sys.schedule r := (uniform q).trans (uniform r).symm
        have behind := held_behind (reached_ordered reach) same here few
        have calls := (List.getElem?_eq_some_iff.mp here).1
        by_cases through : sys.Through cfg q
        · have all := through_left through
          rw [same] at all
          simp only [begun] at behind
          omega
        · obtain ⟨_,_,inside,_⟩ := stuck_stands reach stuck through
          rw [begun,inside,Bool.toNat_true] at behind
          exact through (ih (sys.left cfg q) (by omega) q rfl)
  exact none_behind _ r rfl

theorem remaining_step (step : Step sys cfg next) :
    (∀ q, sys.remaining next q ≤ sys.remaining cfg q) ∧ ∃ r, sys.remaining next r < sys.remaining cfg r := by
  have only : ∀ r done inside, sys.remaining (put cfg r done inside) r < sys.remaining cfg r →
      (∀ q, sys.remaining (put cfg r done inside) q ≤ sys.remaining cfg q) ∧
        ∃ q, sys.remaining (put cfg r done inside) q < sys.remaining cfg q := by
    intro r done inside less
    refine ⟨fun q => ?_,r,less⟩
    by_cases same : q = r
    · subst same; exact Nat.le_of_lt less
    · rw [remaining,remaining,put_other same]
  cases step with
  | @act r a known quiet outside =>
      have low := (List.getElem?_eq_some_iff.mp known).1
      apply only
      rw [remaining,remaining,put_same,outside,Bool.toNat_false]
      dsimp only
      omega
  | @enter r a k known call outside =>
      have low := (List.getElem?_eq_some_iff.mp known).1
      apply only
      rw [remaining,remaining,put_same,outside,Bool.toNat_false,Bool.toNat_true]
      dsimp only
      omega
  | @leave r a k known call inside allowed =>
      have low := (List.getElem?_eq_some_iff.mp known).1
      apply only
      rw [remaining,remaining,put_same,inside,Bool.toNat_false,Bool.toNat_true]
      dsimp only
      omega

theorem leads_reached {n : Nat} (reach : Reached sys cfg) (leads : Leads sys cfg n next) : Reached sys next := by
  induction leads with
  | stay => exact reach
  | step step _ ih => exact ih (.step reach step)

section
variable [Fintype ρ] {n : Nat}

theorem leads_bounded (leads : Leads sys cfg n next) : n ≤ ∑ r, sys.remaining cfg r := by
  induction leads with
  | stay => exact Nat.zero_le _
  | step step _ ih =>
      obtain ⟨others,r,less⟩ := remaining_step step
      have total := Finset.sum_lt_sum (fun q _ => others q) ⟨r,Finset.mem_univ r,less⟩
      omega

theorem uniform_finishes (uniform : ∀ r, sys.schedule r = sys.schedule sys.root) : Finishes sys := by
  constructor
  · intro cfg reach
    by_cases moves : ∃ next, Step sys cfg next
    · exact .inr moves
    · exact .inl (uniform_live uniform reach (not_exists.mp moves))
  · intro n cfg leads
    exact leads_bounded leads

-- Whatever was done first, what is left can be done.
theorem finishes_completes (finishes : Finishes sys) (reach : Reached sys cfg) : ∃ n last, Leads sys cfg n last ∧ ∀ r, sys.Through last r := by
  generalize left : ∑ r, sys.remaining cfg r = work
  induction work using Nat.strong_induction_on generalizing cfg with
  | _ work ih =>
      rcases finishes.live cfg reach with through | ⟨next,step⟩
      · exact ⟨0,cfg,.stay,through⟩
      · obtain ⟨others,r,less⟩ := remaining_step step
        have total := Finset.sum_lt_sum (fun q _ => others q) ⟨r,Finset.mem_univ r,less⟩
        obtain ⟨n,last,leads,through⟩ := ih _ (by omega) (.step reach step) rfl
        exact ⟨n+1,last,.step step leads,through⟩

end
end System

-- Where the calls of a rank and of the root part for good: each of the two waits for the
-- other, and there is a Barrier that one of them never comes to.
inductive Clashes : List Kind → List Kind → Prop where
  | barrier : Clashes (.bcast :: rest) (.barrier :: more)
  | bcast : .barrier ∈ more → Clashes (.barrier :: rest) (.bcast :: .bcast :: .gather :: more)
  | gather : .barrier ∈ more → Clashes (.barrier :: rest) (.gather :: more)

def Splits (ours roots : List Kind) : Prop := ∀ rest more, ∃ front first second,
  ours ++ rest = front ++ first ∧ roots ++ more = front ++ second ∧ Clashes first second

-- The same calls, or calls that part, as a condition decides.
inductive SameOrSplit (ours roots : List Kind) (same : Prop) : Prop where
  | same : ours = roots → same → SameOrSplit ours roots same
  | split : Splits ours roots → ¬ same → SameOrSplit ours roots same

section
variable {ours roots first second : List Kind}

theorem clashes_behind (clashes : Clashes first second) (rest more : List Kind) : Clashes (first ++ rest) (second ++ more) := by
  cases clashes with
  | barrier => exact .barrier
  | bcast later => exact .bcast (List.mem_append_left _ later)
  | gather later => exact .gather (List.mem_append_left _ later)

theorem clashes_split (front : List Kind) (clashes : Clashes first second) : Splits (front ++ first) (front ++ second) := fun rest more =>
  ⟨front,first ++ rest,second ++ more,List.append_assoc _ _ _,List.append_assoc _ _ _,clashes_behind clashes rest more⟩

theorem splits_behind (front : List Kind) (splits : Splits ours roots) : Splits (front ++ ours) (front ++ roots) := by
  intro rest more
  obtain ⟨before,first,second,own,others,clashes⟩ := splits rest more
  exact ⟨front ++ before,first,second,by rw [List.append_assoc,own,List.append_assoc],
    by rw [List.append_assoc,others,List.append_assoc],clashes⟩

theorem splits_before (splits : Splits ours roots) (rest more : List Kind) : Splits (ours ++ rest) (roots ++ more) := by
  intro tail others
  rw [List.append_assoc,List.append_assoc]
  exact splits (rest ++ tail) (more ++ others)

theorem splits_differ (splits : Splits ours roots) : ours ≠ roots := by
  rintro rfl
  obtain ⟨front,first,second,own,others,clashes⟩ := splits [] []
  have same : first = second := List.append_cancel_left (own.symm.trans others)
  subst same
  cases clashes

-- Of pieces that are the same or split, the first that splits does so for the whole.
theorem flatMap_follows {list : List β} {first second : β → List Kind} {same : β → Prop}
    (each : ∀ b ∈ list, SameOrSplit (first b) (second b) (same b)) :
    SameOrSplit (list.flatMap first) (list.flatMap second) (∀ b ∈ list, same b) := by
  induction list with
  | nil => exact .same rfl fun _ member => absurd member List.not_mem_nil
  | cons b rest ih =>
      rw [List.flatMap_cons,List.flatMap_cons]
      cases each b (by simp) with
      | same equal alike =>
          rw [equal]
          cases ih fun other member => each other (List.mem_cons_of_mem _ member) with
          | same whole all =>
              rw [whole]
              refine .same rfl fun other member => ?_
              rcases List.mem_cons.mp member with rfl | inside
              · exact alike
              · exact all other inside
          | split later differ =>
              exact .split (splits_behind _ later) fun all => differ fun other member => all other (List.mem_cons_of_mem _ member)
      | split splits differ => exact .split (splits_before splits _ _) fun all => differ (all b (by simp))

theorem follows_behind {same : Prop} (front : List Kind) (follows : SameOrSplit ours roots same) :
    SameOrSplit (front ++ ours) (front ++ roots) same := by
  cases follows with
  | same equal alike => exact .same (by rw [equal]) alike
  | split splits differ => exact .split (splits_behind front splits) differ

end

namespace System
variable {sys : System ρ α} {cfg : Config ρ} {r q : ρ} {front first second : List Kind}

-- A rank is not through before all have come to its last Barrier.
theorem barrier_missing (ordered : Ordered sys cfg) (held : sys.left cfg r ≤ m)
    (few : ((sys.schedule r).take (m+1)).count .barrier < (sys.schedule q).count .barrier) : ¬ sys.Through cfg q := by
  intro through
  have passed : sys.returned cfg q .barrier = (sys.schedule q).count .barrier := by
    rw [returned_take,through_left through,List.take_length]
  have begun_low : sys.begun cfg r ≤ m + 1 := by
    have flag := Bool.toNat_le (cfg r).inside
    simp only [begun]
    omega
  have come : sys.entered cfg r .barrier ≤ ((sys.schedule r).take (m+1)).count .barrier := by
    rw [entered_take ordered]
    exact List.Sublist.count_le _ (List.take_sublist_take_left begun_low)
  have waited := ordered.barrier q r
  omega

variable [DecidableEq ρ]

-- The rank never passes the place where they part, and none with the root's Barriers is ever
-- through.
theorem clashes_held (reach : sys.Reached cfg) (apart : r ≠ sys.root) (own : sys.schedule r = front ++ first)
    (root : sys.schedule sys.root = front ++ second) (clashes : Clashes first second) : sys.left cfg r ≤ front.length ∧
      ∀ q, sys.schedule q = sys.schedule sys.root → ¬ sys.Through cfg q := by
  have ordered := reached_ordered reach
  cases clashes with
  | barrier =>
      have held := mutual_wait reach (p := r) (q := sys.root) (m := front.length) (n := front.length) (k := .bcast) (l := .barrier)
        (by rw [own]; simp) (by rw [root]; simp) (bcast_waits apart) (barrier_waits sys _ _)
        (by rw [own,root,List.take_left,List.take_length_add_append]; simp)
        (by rw [own,root,List.take_left,List.take_length_add_append]; simp)
      refine ⟨held.1,fun q same => barrier_missing ordered held.1 ?_⟩
      rw [own,same,root,List.take_length_add_append]
      simp
  | @bcast more _ later =>
      have held := mutual_wait reach (p := r) (q := sys.root) (m := front.length) (n := front.length + 2) (k := .barrier) (l := .gather)
        (by rw [own]; simp) (by rw [root]; simp) (barrier_waits sys _ _) (gather_waits sys _)
        (by rw [own,root,List.take_left,Nat.add_assoc,List.take_length_add_append]; simp)
        (by rw [own,root,List.take_length_add_append,List.take_length_add_append]; simp)
      have some_barrier := List.count_pos_iff.mpr later
      refine ⟨held.1,fun q same => barrier_missing ordered held.2 ?_⟩
      rw [same,root,Nat.add_assoc,List.take_length_add_append]
      simp
      omega
  | @gather more _ later =>
      have held := mutual_wait reach (p := r) (q := sys.root) (m := front.length) (n := front.length) (k := .barrier) (l := .gather)
        (by rw [own]; simp) (by rw [root]; simp) (barrier_waits sys _ _) (gather_waits sys _)
        (by rw [own,root,List.take_left,List.take_length_add_append]; simp)
        (by rw [own,root,List.take_left,List.take_length_add_append]; simp)
      have some_barrier := List.count_pos_iff.mpr later
      refine ⟨held.1,fun q same => barrier_missing ordered held.2 ?_⟩
      rw [same,root,List.take_length_add_append]
      simp
      omega

-- Where every rank makes the root's calls, or parts from them: all get through in every order
-- of steps, or there is no order in which any does.
theorem splits_finish [Fintype ρ] {same : ρ → Prop} (each : ∀ r, SameOrSplit (sys.schedule r) (sys.schedule sys.root) (same r)) :
    (Finishes sys ↔ ∀ r, same r) ∧ ((¬ ∀ r, same r) → ∀ cfg, sys.Reached cfg → ∀ q, ¬ sys.Through cfg q) := by
  have parts : ∀ r, Splits (sys.schedule r) (sys.schedule sys.root) → r ≠ sys.root ∧ ∃ front first second,
      sys.schedule r = front ++ first ∧ sys.schedule sys.root = front ++ second ∧ Clashes first second := by
    intro r splits
    obtain ⟨front,first,second,own,root,clashes⟩ := splits [] []
    rw [List.append_nil] at own root
    exact ⟨fun root => splits_differ splits (by rw [root]),front,first,second,own,root,clashes⟩
  have stranded : ∀ cfg, sys.Reached cfg → ∀ r, ¬ same r → ∀ q, ¬ sys.Through cfg q := by
    intro cfg reach r differ q through
    cases each q with
    | same alike _ =>
        cases each r with
        | same _ joins => exact differ joins
        | split splits _ =>
            obtain ⟨apart,front,first,second,own,root,clashes⟩ := parts r splits
            exact (clashes_held reach apart own root clashes).2 q alike through
    | split splits _ =>
        obtain ⟨apart,front,first,second,own,root,clashes⟩ := parts q splits
        have held := (clashes_held reach apart own root clashes).1
        have more : 0 < first.length := by cases clashes <;> exact Nat.succ_pos _
        rw [through_left through,own,List.length_append] at held
        omega
  refine ⟨⟨fun finishes r => ?_,fun all => uniform_finishes fun r => ?_⟩,fun some_other cfg reach => ?_⟩
  · apply Classical.byContradiction
    intro differ
    obtain ⟨_,last,leads,through⟩ := finishes_completes finishes .start
    exact stranded last (leads_reached .start leads) r differ r (through r)
  · cases each r with
    | same alike _ => exact alike
    | split _ differ => exact absurd (all r) differ
  · obtain ⟨r,differ⟩ := not_forall.mp some_other
    exact stranded cfg reach r differ

end System
end Collective
