import Mathlib.Data.List.Basic

namespace Session

-- What one of two parties does with the other: it sends a message, receives the one it
-- expects, or meets the other at a barrier.
inductive Comm (μ : Type) where
  | send (message : μ)
  | recv (message : μ)
  | meet
deriving DecidableEq, Repr

def Comm.dual : Comm μ → Comm μ
  | .send message => .recv message
  | .recv message => .send message
  | .meet => .meet

structure Config (μ : Type) where
  left : List (Comm μ)
  right : List (Comm μ)
  toRight : List μ
  toLeft : List μ

def Config.swap (cfg : Config μ) : Config μ := ⟨cfg.right,cfg.left,cfg.toLeft,cfg.toRight⟩

-- A send does not wait, and a receive takes the next message whatever it expects.
inductive Step : Config μ → Config μ → Prop where
  | sendLeft : Step ⟨.send message :: left,right,toRight,toLeft⟩ ⟨left,right,toRight ++ [message],toLeft⟩
  | sendRight : Step ⟨left,.send message :: right,toRight,toLeft⟩ ⟨left,right,toRight,toLeft ++ [message]⟩
  | recvLeft : Step ⟨.recv expected :: left,right,toRight,message :: toLeft⟩ ⟨left,right,toRight,toLeft⟩
  | recvRight : Step ⟨left,.recv expected :: right,message :: toRight,toLeft⟩ ⟨left,right,toRight,toLeft⟩
  | meet : Step ⟨.meet :: left,.meet :: right,toRight,toLeft⟩ ⟨left,right,toRight,toLeft⟩

inductive Reached (left right : List (Comm μ)) : Nat → Config μ → Prop where
  | start : Reached left right 0 ⟨left,right,[],[]⟩
  | step : Reached left right n cfg → Step cfg next → Reached left right (n+1) next

def Finished (cfg : Config μ) : Prop := cfg.left = [] ∧ cfg.right = []

-- The left party takes a message that is there, or hands one over that the right asks for.
-- Neither needs room for a message in between.
def Proceeds (cfg : Config μ) : Prop :=
  (∃ expected rest message more, cfg.left = .recv expected :: rest ∧ cfg.toLeft = message :: more) ∨
    ∃ message rest expected more, cfg.left = .send message :: rest ∧ cfg.right = .recv expected :: more ∧ cfg.toRight = []

def Meets (cfg : Config μ) : Prop := ∃ rest more, cfg.left = .meet :: rest ∧ cfg.right = .meet :: more

-- Every message is the one its receiver expects, nobody waits for ever, nothing is left over.
structure Safe (cfg : Config μ) : Prop where
  expectedLeft : ∀ expected rest message more, cfg.left = .recv expected :: rest → cfg.toLeft = message :: more → message = expected
  expectedRight : ∀ expected rest message more, cfg.right = .recv expected :: rest → cfg.toRight = message :: more → message = expected
  live : Finished cfg ∨ Proceeds cfg ∨ Proceeds cfg.swap ∨ Meets cfg
  drained : Finished cfg → cfg.toRight = [] ∧ cfg.toLeft = []

-- The right party is behind by what is under way to it, and dual to the left one otherwise.
def Behind (cfg : Config μ) : Prop :=
  cfg.toLeft = [] ∧ cfg.right = cfg.toRight.map .recv ++ cfg.left.map Comm.dual

section
variable {cfg next : Config μ} {left right : List (Comm μ)} {n : Nat}

@[simp] theorem dual_dual (comm : Comm μ) : comm.dual.dual = comm := by cases comm <;> rfl

theorem map_dual_dual (comms : List (Comm μ)) : (comms.map Comm.dual).map Comm.dual = comms := by
  rw [List.map_map]
  exact List.map_id'' dual_dual comms

theorem Step.swap (step : Step cfg next) : Step cfg.swap next.swap := by
  cases step with
  | sendLeft => exact .sendRight
  | sendRight => exact .sendLeft
  | recvLeft => exact .recvRight
  | recvRight => exact .recvLeft
  | meet => exact .meet

theorem behind_step (behind : Behind cfg) (step : Step cfg next) : Behind next ∨ Behind next.swap := by
  obtain ⟨nothing,dual⟩ := behind
  cases step with
  | @sendLeft message left right toRight toLeft =>
      refine .inl ⟨nothing,?_⟩
      change right = _ at dual
      rw [dual]
      simp [Comm.dual]
  | @sendRight left message right toRight toLeft =>
      -- Only a party that is not behind sends, and then it is the other one that is.
      change toLeft = [] at nothing
      change .send message :: right = toRight.map .recv ++ left.map Comm.dual at dual
      cases toRight with
      | cons first more => cases dual
      | nil =>
          cases left with
          | nil => cases dual
          | cons comm rest =>
              injection dual with head tail
              have same : comm = .recv message := by rw [← dual_dual comm,← head]; rfl
              refine .inr ⟨rfl,?_⟩
              change comm :: rest = (toLeft ++ [message]).map .recv ++ right.map Comm.dual
              rw [nothing,tail,List.nil_append,map_dual_dual,same]
              rfl
  | recvLeft => cases nothing
  | @recvRight left expected right message toRight toLeft =>
      injection dual with head tail
      exact .inl ⟨nothing,tail⟩
  | @meet left right toRight toLeft =>
      change .meet :: right = toRight.map .recv ++ (.meet :: left).map Comm.dual at dual
      cases toRight with
      | cons first more => cases dual
      | nil =>
          injection dual with _ tail
          exact .inl ⟨nothing,tail⟩

theorem reached_behind (reach : Reached left (left.map Comm.dual) n cfg) : Behind cfg ∨ Behind cfg.swap := by
  induction reach with
  | start => exact .inl ⟨rfl,rfl⟩
  | step _ step ih =>
      rcases ih with behind | behind
      · exact behind_step behind step
      · exact (behind_step behind step.swap).symm

theorem behind_live (behind : Behind cfg) : Finished cfg ∨ Proceeds cfg ∨ Proceeds cfg.swap ∨ Meets cfg := by
  obtain ⟨left,right,toRight,toLeft⟩ := cfg
  obtain ⟨nothing,dual⟩ := behind
  dsimp only at nothing dual
  cases toRight with
  | cons message more => exact .inr (.inr (.inl (.inl ⟨message,_,message,more,dual,rfl⟩)))
  | nil =>
      cases left with
      | nil => exact .inl ⟨rfl,dual⟩
      | cons comm rest =>
          cases comm with
          | send message => exact .inr (.inl (.inr ⟨message,rest,message,_,rfl,dual,rfl⟩))
          | recv message => exact .inr (.inr (.inl (.inr ⟨message,_,message,rest,dual,rfl,nothing⟩)))
          | meet => exact .inr (.inr (.inr ⟨rest,_,rfl,dual⟩))

theorem behind_safe (behind : Behind cfg) : Safe cfg := by
  obtain ⟨nothing,dual⟩ := id behind
  refine ⟨?_,?_,behind_live behind,?_⟩
  · intro expected rest message more _ under_way
    rw [nothing] at under_way
    cases under_way
  · intro expected rest message more asks under_way
    rw [asks,under_way] at dual
    injection dual with head _
    injection head with same
    exact same.symm
  · rintro ⟨left,right⟩
    rw [left,right] at dual
    exact ⟨List.map_eq_nil_iff.mp (List.append_eq_nil_iff.mp dual.symm).1,nothing⟩

theorem Safe.swap (safe : Safe cfg.swap) : Safe cfg := by
  refine ⟨safe.expectedRight,safe.expectedLeft,?_,fun ended => (safe.drained ended.symm).symm⟩
  rcases safe.live with ended | proceeds | proceeds | ⟨rest,more,here,there⟩
  · exact .inl ended.symm
  · exact .inr (.inr (.inl proceeds))
  · exact .inr (.inl proceeds)
  · exact .inr (.inr (.inr ⟨more,rest,there,here⟩))

theorem dual_safe (reach : Reached left (left.map Comm.dual) n cfg) : Safe cfg := by
  rcases reached_behind reach with behind | behind
  · exact behind_safe behind
  · exact (behind_safe behind).swap

theorem step_shrinks (step : Step cfg next) : next.left.length + next.right.length < cfg.left.length + cfg.right.length := by
  cases step <;> simp only [List.length_cons] <;> omega

theorem reached_bounded (reach : Reached left right n cfg) : n + (cfg.left.length + cfg.right.length) ≤ left.length + right.length := by
  induction reach with
  | start => exact Nat.le_of_eq (Nat.zero_add _)
  | step _ step ih =>
      have shrinks := step_shrinks step
      omega

end
end Session
