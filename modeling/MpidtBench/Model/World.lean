import MpidtBench.Library.Sharing
import MpidtBench.Model.Effects
import MpidtBench.Model.Main

namespace MpidtBench
open ByteMemory

structure World (ρ : Type) where
  memory : ρ → Memory
  region : Memory

def regionOffset (bufsize : Nat) (mapped : Option Nat) (address : Nat) : Option Nat :=
  mapped.bind fun ptr => if ptr ≤ address ∧ address < ptr + bufsize then some (address - ptr) else none

def World.view (w : World ρ) (bufsize : Nat) (mapped : Option Nat) (r : ρ) : Memory := fun a =>
  match regionOffset bufsize mapped a with
  | some o => w.region o
  | none => w.memory r a

def World.store [DecidableEq ρ] (w : World ρ) (bufsize : Nat) (mapped : Option Nat) (r : ρ) (after : Memory) : World ρ where
  memory := Function.update w.memory r fun a => match regionOffset bufsize mapped a with
    | some _ => w.memory r a
    | none => after a
  region := fun o => match mapped with
    | some ptr => if o < bufsize then after (ptr + o) else w.region o
    | none => w.region o

-- What a rank reads of another process is the sender's memory.
def World.step [DecidableEq ρ] (sender : ρ) (bufsize : Nat) (mapped : Option Nat) (r : ρ) (act : Act) (w : World ρ) : World ρ :=
  w.store bufsize mapped r (effect (w.memory sender) (w.view bufsize mapped r) act)

-- Main has the region mapped from init_shmem to cleanup_shmem.
def mapping (machine : Machine) : Option (Nat × Bench) → Option Nat
  | some (q,.shmem) => some (machine.shmemPtr q)
  | some (q,.shmemPip) => some (machine.shmemPtr q)
  | _ => none

def mainStep (sender : Fin size) (bufsize : Nat) (machine : Fin size → Machine) (r : Fin size) (event : Event) (w : World (Fin size)) :
    World (Fin size) :=
  w.step sender bufsize (mapping (machine r) event.1) r event.2.2

section
variable {w : World ρ} {bufsize a ptr : Nat} {mapped : Option Nat} {r : ρ}

theorem regionOffset_none (outside : ∀ ptr, mapped = some ptr → a < ptr ∨ ptr + bufsize ≤ a) : regionOffset bufsize mapped a = none := by
  cases mapped with
  | none => rfl
  | some ptr =>
      have bounds := outside ptr rfl
      exact if_neg (by omega)

theorem view_private (outside : regionOffset bufsize mapped a = none) : w.view bufsize mapped r a = w.memory r a := by
  rw [World.view,outside]

theorem view_region (inside : o < bufsize) : w.view bufsize (some ptr) r (ptr + o) = w.region o := by
  have offset : regionOffset bufsize (some ptr) (ptr + o) = some o := by simp [regionOffset,inside]
  rw [World.view,offset]

variable [DecidableEq ρ] {after : Memory}

theorem store_private (outside : regionOffset bufsize mapped a = none) : (w.store bufsize mapped r after).memory r a = after a := by
  simp only [World.store,Function.update_self,outside]

theorem store_other {q : ρ} (apart : q ≠ r) : (w.store bufsize mapped r after).memory q = w.memory q :=
  Function.update_of_ne apart _ _

theorem store_unmapped : (w.store bufsize none r after).region = w.region := rfl

theorem store_region (inside : o < bufsize) : (w.store bufsize (some ptr) r after).region o = after (ptr + o) := if_pos inside

end
end MpidtBench
