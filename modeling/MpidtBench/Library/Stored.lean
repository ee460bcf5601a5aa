import Mathlib.Data.List.GetD
import Mathlib.Tactic.Ring
import MpidtBench.Library.ByteMemory

namespace Stored
open ByteMemory

def put (m : Memory) (a : Nat) (bytes : List UInt8) : Memory :=
  fun b => if a ≤ b ∧ b < a + bytes.length then bytes.getD (b - a) 0 else m b
def peek (m : Memory) (a len : Nat) : List UInt8 := (List.range' a len).map m

def puts (writes : List (Nat × List UInt8)) (m : Memory) : Memory := writes.foldl (fun m write => put m write.1 write.2) m

def cut (bytes : List UInt8) (offset len : Nat) : List UInt8 := (bytes.drop offset).take len

-- An integer of so many bytes, in two's complement with the lowest byte first.
def toBytes : Nat → Int → List UInt8
  | 0,_ => []
  | width+1,x => UInt8.ofNat (x % 256).toNat :: toBytes width (x / 256)

def ofBytes : List UInt8 → Nat
  | [] => 0
  | byte :: rest => byte.toNat + 256 * ofBytes rest

def integer (bytes : List UInt8) : Int := Int.bmod (ofBytes bytes) (256 ^ bytes.length)

section
variable {m other : Memory} {a b len offset k width : Nat} {bytes more : List UInt8} {x : Int} {writes : List (Nat × List UInt8)}

@[simp] theorem peek_length (m : Memory) (a len : Nat) : (peek m a len).length = len := by simp [peek]

@[simp] theorem toBytes_length (width : Nat) (x : Int) : (toBytes width x).length = width := by
  induction width generalizing x with
  | zero => rfl
  | succ width ih => rw [toBytes,List.length_cons,ih]

theorem put_outside (outside : b < a ∨ a + bytes.length ≤ b) : put m a bytes b = m b := by
  rw [put,if_neg (by omega)]

theorem put_at (inside : k < bytes.length) : put m a bytes (a + k) = bytes.getD k 0 := by
  rw [put,if_pos (by omega),Nat.add_sub_cancel_left]

theorem put_append (m : Memory) (a : Nat) (bytes more : List UInt8) : put (put m a bytes) (a + bytes.length) more = put m a (bytes ++ more) := by
  funext b
  simp only [put,List.length_append]
  by_cases second : a + bytes.length ≤ b ∧ b < a + bytes.length + more.length
  · rw [if_pos second,if_pos (by omega),List.getD_append_right _ _ _ _ (by omega),Nat.sub_add_eq]
  · rw [if_neg second]
    by_cases first : a ≤ b ∧ b < a + bytes.length
    · rw [if_pos first,if_pos (by omega),List.getD_append _ _ _ _ (by omega)]
    · rw [if_neg first,if_neg (by omega)]

theorem peek_congr (same : ∀ k < len, m (a + k) = other (a + k)) : peek m a len = peek other a len := by
  refine List.map_congr_left fun b member => ?_
  rw [List.mem_range'_1] at member
  rw [show b = a + (b - a) by omega]
  exact same _ (by omega)

theorem peek_eq (sized : bytes.length = len) (same : ∀ k < len, m (a + k) = bytes.getD k 0) : peek m a len = bytes := by
  refine List.ext_getElem (by rw [peek_length,sized]) fun k below inside => ?_
  rw [peek_length] at below
  simp only [peek,List.getElem_map,List.getElem_range',Nat.one_mul]
  rw [same k below,List.getD_eq_getElem _ _ inside]

theorem peek_at (m : Memory) (a : Nat) (inside : k < len) : (peek m a len).getD k 0 = m (a + k) := by
  rw [List.getD_eq_getElem _ _ (by simpa using inside)]
  simp [peek]

theorem put_peek (m other : Memory) (a b : Nat) (inside : k < len) : put m a (peek other b len) (a + k) = other (b + k) := by
  rw [put_at (by simpa using inside),peek_at other b inside]

theorem cut_at (inside : k < len) : (cut bytes offset len).getD k 0 = bytes.getD (offset + k) 0 := by
  simp [cut,List.getD_eq_getElem?_getD,List.getElem?_take_of_lt inside]

theorem cut_length (within : offset + len ≤ bytes.length) : (cut bytes offset len).length = len := by
  simp only [cut,List.length_take,List.length_drop]
  omega

theorem peek_put (m : Memory) (a : Nat) (within : offset + len ≤ bytes.length) : peek (put m a bytes) (a + offset) len = cut bytes offset len := by
  refine peek_eq (cut_length within) fun k below => ?_
  rw [cut_at below,Nat.add_assoc,put_at (by omega)]

theorem cut_whole (sized : bytes.length = len) : cut bytes 0 len = bytes := by
  rw [cut,List.drop_zero,List.take_of_length_le (Nat.le_of_eq sized)]

theorem peek_put_whole (m : Memory) (a : Nat) (sized : bytes.length = len) : peek (put m a bytes) a len = bytes :=
  (peek_put m a (by omega)).trans (cut_whole sized)

theorem peek_apart (apart : b + len ≤ a ∨ a + bytes.length ≤ b) : peek (put m a bytes) b len = peek m b len :=
  peek_congr fun k below => put_outside (by omega)

@[simp] theorem puts_nil (m : Memory) : puts [] m = m := rfl
@[simp] theorem puts_cons (write : Nat × List UInt8) (m : Memory) : puts (write :: writes) m = puts writes (put m write.1 write.2) := rfl

theorem puts_outside (outside : ∀ write ∈ writes, b < write.1 ∨ write.1 + write.2.length ≤ b) : puts writes m b = m b := by
  induction writes generalizing m with
  | nil => rfl
  | cons write rest ih =>
      rw [puts_cons,ih fun other member => outside other (List.mem_cons_of_mem _ member),put_outside (outside write List.mem_cons_self)]

theorem peek_puts_apart (apart : ∀ write ∈ writes, b + len ≤ write.1 ∨ write.1 + write.2.length ≤ b) : peek (puts writes m) b len = peek m b len :=
  peek_congr fun k below => puts_outside fun write member => by have := apart write member; omega

theorem peek_puts (sized : bytes.length = len) (written : (a,bytes) ∈ writes)
    (apart : ∀ write ∈ writes, write = (a,bytes) ∨ (a + len ≤ write.1 ∨ write.1 + write.2.length ≤ a)) : peek (puts writes m) a len = bytes := by
  induction writes generalizing m with
  | nil => cases written
  | cons write rest ih =>
      have others := fun other member => apart other (List.mem_cons_of_mem write member)
      rw [puts_cons]
      by_cases again : (a,bytes) ∈ rest
      · exact ih again others
      · have same : write = (a,bytes) := (List.mem_cons.mp written).elim Eq.symm fun later => absurd later again
        subst same
        rw [peek_puts_apart fun other member => (others other member).resolve_left fun equal => again (equal ▸ member)]
        exact peek_put_whole m a sized

theorem cut_peek (m : Memory) (a : Nat) {size : Nat} (within : offset + len ≤ size) : cut (peek m a size) offset len = peek m (a + offset) len := by
  refine (peek_eq (cut_length (by simpa using within)) fun k below => ?_).symm
  rw [cut_at below,peek_at m a (by omega),Nat.add_assoc]

theorem emod_split (x p : Int) : x % (256 * p) = x % 256 + 256 * (x / 256 % p) := by
  rw [Int.emod_def,Int.emod_def x 256,Int.emod_def (x / 256) p,← Int.ediv_ediv_of_nonneg (by decide)]
  ring

theorem ofBytes_toBytes (width : Nat) (x : Int) : (ofBytes (toBytes width x) : Int) = x % 256 ^ width := by
  induction width generalizing x with
  | zero => simp [toBytes,ofBytes]
  | succ width ih =>
      have low : (UInt8.ofNat (x % 256).toNat).toNat = (x % 256).toNat := by
        rw [UInt8.toNat_ofNat',Nat.mod_eq_of_lt]
        omega
      rw [toBytes,ofBytes,low]
      push_cast
      rw [ih,Int.toNat_of_nonneg (Int.emod_nonneg _ (by decide)),pow_succ',emod_split]

theorem integer_toBytes (low : -(256 ^ width : Int) ≤ 2 * x) (high : 2 * x < 256 ^ width) : integer (toBytes width x) = x := by
  rw [integer,ofBytes_toBytes,toBytes_length]
  have residue := Int.emod_bmod x (256 ^ width)
  push_cast at residue
  rw [residue]
  exact Int.bmod_eq_of_le_mul_two (by push_cast; omega) (by push_cast; omega)

end
end Stored
