import Mathlib.Data.Multiset.AddSub

namespace Ledger

-- Keys that are acquired and released, a key as often as one likes.
inductive Entry (κ : Type) where
  | acquire (key : κ)
  | release (key : κ)
deriving DecidableEq, Repr

def Entry.acquired : Entry κ → Option κ
  | .acquire key => some key
  | .release _ => none
def Entry.released : Entry κ → Option κ
  | .acquire _ => none
  | .release key => some key

def acquired (entries : List (Entry κ)) : List κ := entries.filterMap Entry.acquired
def released (entries : List (Entry κ)) : List κ := entries.filterMap Entry.released

-- What is held behind the entries; none when a key is released that is not held.
def settle [DecidableEq κ] : Multiset κ → List (Entry κ) → Option (Multiset κ)
  | held,[] => some held
  | held,.acquire key :: rest => settle (key ::ₘ held) rest
  | held,.release key :: rest => if key ∈ held then settle (held.erase key) rest else none

-- Every key acquired is released once, after that, and nothing else is.
def Settled [DecidableEq κ] (entries : List (Entry κ)) : Prop := settle 0 entries = some 0

section
variable {κ : Type} {first second entries : List (Entry κ)}

@[simp] theorem acquired_nil : acquired ([] : List (Entry κ)) = [] := rfl
@[simp] theorem released_nil : released ([] : List (Entry κ)) = [] := rfl
@[simp] theorem acquired_acquire (key : κ) (rest : List (Entry κ)) : acquired (.acquire key :: rest) = key :: acquired rest := rfl
@[simp] theorem acquired_release (key : κ) (rest : List (Entry κ)) : acquired (.release key :: rest) = acquired rest := rfl
@[simp] theorem released_acquire (key : κ) (rest : List (Entry κ)) : released (.acquire key :: rest) = released rest := rfl
@[simp] theorem released_release (key : κ) (rest : List (Entry κ)) : released (.release key :: rest) = key :: released rest := rfl
@[simp] theorem acquired_append : acquired (first ++ second) = acquired first ++ acquired second := List.filterMap_append
@[simp] theorem released_append : released (first ++ second) = released first ++ released second := List.filterMap_append

@[simp] theorem acquired_releases (keys : List κ) : acquired (keys.map .release) = [] := by
  simp [acquired,List.filterMap_map,Function.comp_def,Entry.acquired]
@[simp] theorem released_releases (keys : List κ) : released (keys.map .release) = keys := by
  simp [released,List.filterMap_map,Function.comp_def,Entry.released]

end

section
variable {κ : Type} [DecidableEq κ] {held left : Multiset κ} {first second entries : List (Entry κ)}

theorem settle_append (held : Multiset κ) (first second : List (Entry κ)) :
    settle held (first ++ second) = (settle held first).bind fun left => settle left second := by
  induction first generalizing held with
  | nil => rfl
  | cons entry rest ih =>
      cases entry with
      | acquire key => exact ih _
      | release key =>
          simp only [List.cons_append,settle]
          split
          · exact ih _
          · rfl

theorem settle_total (settled : settle held entries = some left) :
    held + (acquired entries : Multiset κ) = left + (released entries : Multiset κ) := by
  induction entries generalizing held with
  | nil => cases settled; rfl
  | cons entry rest ih =>
      cases entry with
      | acquire key =>
          have later := ih settled
          rw [Multiset.cons_add] at later
          rw [acquired_acquire,released_acquire,← Multiset.cons_coe,Multiset.add_cons,later]
      | release key =>
          simp only [settle] at settled
          split at settled
          · rename_i present
            have later := ih settled
            rw [acquired_release,released_release,← Multiset.cons_coe,Multiset.add_cons,← later,← Multiset.cons_add,
              Multiset.cons_erase present]
          · cases settled

theorem settle_acquires (held : Multiset κ) (keys : List κ) : settle held (keys.map .acquire) = some (held + (keys : Multiset κ)) := by
  induction keys generalizing held with
  | nil => simp [settle]
  | cons key rest ih =>
      rw [List.map_cons,settle,ih,← Multiset.cons_coe,Multiset.cons_add,Multiset.add_cons]

theorem settle_releases (held : Multiset κ) (keys : List κ) : settle (held + (keys : Multiset κ)) (keys.map .release) = some held := by
  induction keys with
  | nil => simp [settle]
  | cons key rest ih =>
      rw [List.map_cons,settle,← Multiset.cons_coe,Multiset.add_cons,if_pos (Multiset.mem_cons_self _ _),Multiset.erase_cons_head,ih]

theorem Settled.append (left : Settled first) (right : Settled second) : Settled (first ++ second) := by
  rw [Settled,settle_append,left]
  exact right

theorem settled_released (keys : List κ) : Settled (keys.map .acquire ++ keys.map .release) := by
  rw [Settled,settle_append,settle_acquires]
  exact settle_releases 0 keys

theorem Settled.perm (settled : Settled entries) : (released entries).Perm (acquired entries) := by
  have total := settle_total settled
  rw [Multiset.zero_add,Multiset.zero_add] at total
  exact (Multiset.coe_eq_coe.mp total).symm

end
end Ledger
