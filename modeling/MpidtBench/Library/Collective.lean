import Mathlib.Data.Fintype.Basic
import Mathlib.Data.List.Basic
import Mathlib.Logic.Function.Basic

namespace Collective

inductive Kind where
  | bcast
  | gather
  | barrier
deriving DecidableEq, Repr

-- Every rank runs a fixed list of actions; `kind` tells which are collective calls.
structure System (ρ α : Type) where
  root : ρ
  kind : α → Option Kind
  acts : ρ → List α

-- How far a rank is: the actions it has finished, and whether it has entered the
-- collective call it stands at.
structure Place where
  done : Nat
  inside : Bool

abbrev Config (ρ : Type) := ρ → Place

def kinds (kind : α → Option Kind) (acts : List α) : List Kind := acts.filterMap kind
def calls (kind : α → Option Kind) (acts : List α) : List α := acts.filter fun a => (kind a).isSome

namespace System
variable (sys : System ρ α)

def finished (cfg : Config ρ) (r : ρ) : List α := (sys.acts r).take (cfg r).done
def current (cfg : Config ρ) (r : ρ) : Option α := (sys.acts r)[(cfg r).done]?

-- Calls, of one kind and of any kind, that a rank has returned from and has entered.
def returned (cfg : Config ρ) (r : ρ) (k : Kind) : Nat := (kinds sys.kind (sys.finished cfg r)).count k
def entered (cfg : Config ρ) (r : ρ) (k : Kind) : Nat :=
  sys.returned cfg r k + ((cfg r).inside && (sys.current cfg r).bind sys.kind == some k).toNat
def left (cfg : Config ρ) (r : ρ) : Nat := (kinds sys.kind (sys.finished cfg r)).length
def begun (cfg : Config ρ) (r : ρ) : Nat := sys.left cfg r + (cfg r).inside.toNat

-- All that MPI promises: the n-th Bcast returns on a non-root only after the root has
-- entered its n-th, the n-th Gather on the root and the n-th Barrier on any rank only
-- after every rank has entered its n-th.
def MayReturn (cfg : Config ρ) (r : ρ) : Kind → Prop
  | .bcast => r = sys.root ∨ sys.returned cfg r .bcast < sys.entered cfg sys.root .bcast
  | .gather => r ≠ sys.root ∨ ∀ q, sys.returned cfg r .gather < sys.entered cfg q .gather
  | .barrier => ∀ q, sys.returned cfg r .barrier < sys.entered cfg q .barrier

variable [DecidableEq ρ]

def put (cfg : Config ρ) (r : ρ) (done : Nat) (inside : Bool) : Config ρ := Function.update cfg r ⟨done,inside⟩

inductive Step : Config ρ → Config ρ → Prop where
  | act : sys.current cfg r = some a → sys.kind a = none → (cfg r).inside = false →
      Step cfg (put cfg r ((cfg r).done+1) false)
  | enter : sys.current cfg r = some a → sys.kind a = some k → (cfg r).inside = false →
      Step cfg (put cfg r (cfg r).done true)
  | leave : sys.current cfg r = some a → sys.kind a = some k → (cfg r).inside = true → sys.MayReturn cfg r k →
      Step cfg (put cfg r ((cfg r).done+1) false)

inductive Reached : Config ρ → Prop where
  | start : Reached fun _ => ⟨0,false⟩
  | step : Reached cfg → Step sys cfg next → Reached next

-- The move a rank can make, for systems of finitely many ranks, and what a schedule makes
-- of them.
instance [Fintype ρ] (cfg : Config ρ) (r : ρ) : (k : Kind) → Decidable (sys.MayReturn cfg r k)
  | .bcast => inferInstanceAs (Decidable (_ ∨ _))
  | .gather => inferInstanceAs (Decidable (_ ∨ ∀ _, _))
  | .barrier => inferInstanceAs (Decidable (∀ _, _))

def move [Fintype ρ] (cfg : Config ρ) (r : ρ) : Option (Config ρ) :=
  match sys.current cfg r with
  | none => none
  | some a => match sys.kind a,(cfg r).inside with
    | none,false => some (put cfg r ((cfg r).done+1) false)
    | none,true => none
    | some _,false => some (put cfg r (cfg r).done true)
    | some k,true => if sys.MayReturn cfg r k then some (put cfg r ((cfg r).done+1) false) else none

def moves [Fintype ρ] : Config ρ → List ρ → Option (Config ρ)
  | cfg,[] => some cfg
  | cfg,r :: rest => (sys.move cfg r).bind (moves · rest)

end System

section
variable {kind : α → Option Kind} {acts : List α}

@[simp] theorem kinds_append (first second : List α) : kinds kind (first ++ second) = kinds kind first ++ kinds kind second := by
  simp [kinds]
theorem kinds_local (quiet : ∀ a ∈ acts, kind a = none) : kinds kind acts = [] := by
  simpa [kinds] using quiet
theorem kinds_call (call : kind a = some k) : kinds kind (a :: acts) = k :: kinds kind acts := by
  simp [kinds,call]

theorem kinds_take (acts : List α) (n : Nat) :
    kinds kind (acts.take n) = (kinds kind acts).take (kinds kind (acts.take n)).length := by
  have whole := @kinds_append _ kind (acts.take n) (acts.drop n)
  rw [List.take_append_drop] at whole
  rw [whole,List.take_left]

theorem kinds_take_succ (known : acts[n]? = some a) (call : kind a = some k) :
    kinds kind (acts.take (n+1)) = kinds kind (acts.take n) ++ [k] := by
  rw [List.take_add_one,known]
  simp [kinds,call]

theorem kinds_take_local (known : acts[n]? = some a) (quiet : kind a = none) :
    kinds kind (acts.take (n+1)) = kinds kind (acts.take n) := by
  rw [List.take_add_one,known]
  simp [kinds,quiet]

end

namespace System
variable {sys : System ρ α} {cfg next : Config ρ} {r q : ρ} {k : Kind} {a : α}

theorem entered_outside (outside : (cfg r).inside = false) : sys.entered cfg r k = sys.returned cfg r k := by
  simp [entered,outside]

theorem entered_inside (inside : (cfg r).inside = true) (known : sys.current cfg r = some a) (call : sys.kind a = some j) :
    sys.entered cfg r k = sys.returned cfg r k + if j = k then 1 else 0 := by
  simp only [entered,inside,known,Option.bind_some,call,Bool.true_and]
  by_cases same : j = k <;> simp [same]

-- What the rules of MPI make hold in every configuration reached.
structure Ordered (sys : System ρ α) (cfg : Config ρ) : Prop where
  valid : ∀ r, (cfg r).inside = true → ∃ a k, sys.current cfg r = some a ∧ sys.kind a = some k
  bcast : ∀ r, r ≠ sys.root → sys.returned cfg r .bcast ≤ sys.entered cfg sys.root .bcast
  gather : ∀ q, sys.returned cfg sys.root .gather ≤ sys.entered cfg q .gather
  barrier : ∀ r q, sys.returned cfg r .barrier ≤ sys.entered cfg q .barrier

theorem start_ordered (sys : System ρ α) : Ordered sys fun _ => ⟨0,false⟩ := by
  have none_yet : ∀ r k, sys.returned (fun _ => ⟨0,false⟩) r k = 0 := fun r k => by simp [returned,finished,kinds]
  exact ⟨nofun,fun r _ => by rw [none_yet]; omega,fun q => by rw [none_yet]; omega,fun r q => by rw [none_yet]; omega⟩

variable [DecidableEq ρ]

@[simp] theorem put_same (cfg : Config ρ) (r : ρ) (done : Nat) (inside : Bool) :
    put cfg r done inside r = ⟨done,inside⟩ := Function.update_self _ _ _
theorem put_other (apart : q ≠ r) (done : Nat) (inside : Bool) : put cfg r done inside q = cfg q :=
  Function.update_of_ne apart _ _

theorem returned_other (apart : q ≠ r) (done : Nat) (inside : Bool) :
    sys.returned (put cfg r done inside) q k = sys.returned cfg q k := by
  simp only [returned,finished,put_other apart]

theorem entered_other (apart : q ≠ r) (done : Nat) (inside : Bool) :
    sys.entered (put cfg r done inside) q k = sys.entered cfg q k := by
  simp only [entered,current,returned_other apart,put_other apart]

theorem act_counts (known : sys.current cfg r = some a) (quiet : sys.kind a = none) (outside : (cfg r).inside = false) :
    sys.returned (put cfg r ((cfg r).done+1) false) r k = sys.returned cfg r k ∧
      sys.entered (put cfg r ((cfg r).done+1) false) r k = sys.entered cfg r k := by
  have same : sys.returned (put cfg r ((cfg r).done+1) false) r k = sys.returned cfg r k := by
    simp only [returned,finished,put_same,kinds_take_local known quiet]
  refine ⟨same,?_⟩
  rw [entered_outside (by simp),entered_outside outside,same]

theorem enter_counts (known : sys.current cfg r = some a) (call : sys.kind a = some j) (outside : (cfg r).inside = false) :
    sys.returned (put cfg r (cfg r).done true) r k = sys.returned cfg r k ∧
      sys.entered (put cfg r (cfg r).done true) r k = sys.entered cfg r k + if j = k then 1 else 0 := by
  have same : sys.returned (put cfg r (cfg r).done true) r k = sys.returned cfg r k := by
    simp only [returned,finished,put_same]
  have here : sys.current (put cfg r (cfg r).done true) r = some a := by
    simpa only [current,put_same] using known
  refine ⟨same,?_⟩
  rw [entered_inside (by simp) here call,entered_outside outside,same]

theorem leave_counts (known : sys.current cfg r = some a) (call : sys.kind a = some j) (inside : (cfg r).inside = true) :
    sys.returned (put cfg r ((cfg r).done+1) false) r k = sys.returned cfg r k + (if j = k then 1 else 0) ∧
      sys.entered (put cfg r ((cfg r).done+1) false) r k = sys.entered cfg r k := by
  have one : sys.returned (put cfg r ((cfg r).done+1) false) r k = sys.returned cfg r k + if j = k then 1 else 0 := by
    simp only [returned,finished,put_same,kinds_take_succ known call,List.count_append,List.count_singleton,beq_iff_eq]
  refine ⟨one,?_⟩
  rw [entered_outside (by simp),entered_inside inside known call,one]

-- The counts of rank `r` stay or grow, all others stay: enough for every clause but the
-- one a return is allowed by.
theorem ordered_of_counts (old : Ordered sys cfg) (done : Nat) (inside : Bool)
    (valid : inside = true → ∃ a k, (sys.acts r)[done]? = some a ∧ sys.kind a = some k)
    (enters : ∀ k, sys.entered cfg r k ≤ sys.entered (put cfg r done inside) r k)
    (bcast : r ≠ sys.root → sys.returned (put cfg r done inside) r .bcast ≤ sys.entered cfg sys.root .bcast)
    (gather : r = sys.root → ∀ q, sys.returned (put cfg r done inside) r .gather ≤ sys.entered cfg q .gather)
    (barrier : ∀ q, sys.returned (put cfg r done inside) r .barrier ≤ sys.entered cfg q .barrier) :
    Ordered sys (put cfg r done inside) := by
  have grows : ∀ q k, sys.entered cfg q k ≤ sys.entered (put cfg r done inside) q k := by
    intro q k
    by_cases same : q = r
    · subst same; exact enters k
    · exact Nat.le_of_eq (entered_other same _ _).symm
  refine ⟨?_,?_,?_,?_⟩
  · intro q entered
    by_cases same : q = r
    · subst same
      simp only [put_same] at entered
      simpa only [current,put_same] using valid entered
    · rw [put_other same] at entered
      simpa only [current,put_other same] using old.valid q entered
  · intro q apart
    by_cases same : q = r
    · subst same; exact Nat.le_trans (bcast apart) (grows _ _)
    · rw [returned_other same]; exact Nat.le_trans (old.bcast q apart) (grows _ _)
  · intro q
    by_cases same : sys.root = r
    · have bound := gather same.symm q
      rw [← same] at bound
      rw [← same] at grows ⊢
      exact Nat.le_trans bound (grows _ _)
    · rw [returned_other same]; exact Nat.le_trans (old.gather q) (grows _ _)
  · intro p q
    by_cases same : p = r
    · subst same; exact Nat.le_trans (barrier q) (grows _ _)
    · rw [returned_other same]; exact Nat.le_trans (old.barrier p q) (grows _ _)

theorem step_ordered (old : Ordered sys cfg) (step : Step sys cfg next) : Ordered sys next := by
  cases step with
  | act known quiet outside =>
      refine ordered_of_counts old _ _ nofun ?_ ?_ ?_ ?_
      · intro k; exact Nat.le_of_eq (act_counts known quiet outside).2.symm
      · intro apart; rw [(act_counts known quiet outside).1]; exact old.bcast _ apart
      · intro same q; rw [(act_counts known quiet outside).1,same]; exact old.gather q
      · intro q; rw [(act_counts known quiet outside).1]; exact old.barrier _ q
  | enter known call outside =>
      refine ordered_of_counts old _ _ (fun _ => ⟨_,_,known,call⟩) ?_ ?_ ?_ ?_
      · intro k; rw [(enter_counts known call outside).2]; omega
      · intro apart; rw [(enter_counts known call outside).1]; exact old.bcast _ apart
      · intro same q; rw [(enter_counts known call outside).1,same]; exact old.gather q
      · intro q; rw [(enter_counts known call outside).1]; exact old.barrier _ q
  | @leave r a kind known call inside allowed =>
      refine ordered_of_counts old _ _ nofun ?_ ?_ ?_ ?_
      · intro k; exact Nat.le_of_eq (leave_counts known call inside).2.symm
      · intro apart
        rw [(leave_counts known call inside).1]
        have before := old.bcast _ apart
        split
        · rename_i same
          subst same
          rcases allowed with root | room
          · exact absurd root apart
          · omega
        · omega
      · intro same q
        rw [(leave_counts known call inside).1]
        have before := old.gather q
        rw [← same] at before
        split
        · rename_i equal
          subst equal
          rcases allowed with other | room
          · exact absurd same other
          · have bound := room q; omega
        · omega
      · intro q
        rw [(leave_counts known call inside).1]
        have before := old.barrier r q
        split
        · rename_i equal
          subst equal
          have bound := allowed q
          omega
        · omega

theorem move_exact [Fintype ρ] : Step sys cfg next ↔ ∃ r, sys.move cfg r = some next := by
  constructor
  · intro step
    cases step with
    | @act r _ known quiet outside => exact ⟨r,by simp only [move,known,quiet,outside]⟩
    | @enter r _ _ known call outside => exact ⟨r,by simp only [move,known,call,outside]⟩
    | @leave r _ _ known call inside allowed => exact ⟨r,by simp only [move,known,call,inside,if_pos allowed]⟩
  · intro given
    obtain ⟨r,moved⟩ := given
    unfold move at moved
    cases known : sys.current cfg r with
    | none => rw [known] at moved; cases moved
    | some a =>
        rw [known] at moved
        dsimp only at moved
        cases called : sys.kind a with
        | none =>
            cases stands : (cfg r).inside with
            | false => rw [called,stands] at moved; cases moved; exact .act known called stands
            | true => rw [called,stands] at moved; cases moved
        | some k =>
            cases stands : (cfg r).inside with
            | false => rw [called,stands] at moved; cases moved; exact .enter known called stands
            | true =>
                rw [called,stands] at moved
                dsimp only at moved
                split at moved
                · rename_i allowed
                  cases moved
                  exact .leave known called stands allowed
                · cases moved

theorem moves_reached [Fintype ρ] (reach : Reached sys cfg) {schedule : List ρ} (moved : sys.moves cfg schedule = some next) :
    Reached sys next := by
  induction schedule generalizing cfg with
  | nil => cases moved; exact reach
  | cons r rest ih =>
      obtain ⟨middle,first,later⟩ := Option.bind_eq_some_iff.mp moved
      exact ih (.step reach (move_exact.mpr ⟨r,first⟩)) later

theorem reached_ordered (reach : Reached sys cfg) : Ordered sys cfg := by
  induction reach with
  | start => exact start_ordered sys
  | step _ step ih => exact step_ordered ih step

end System
end Collective
