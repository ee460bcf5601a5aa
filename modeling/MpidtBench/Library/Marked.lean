import MpidtBench.Library.Windows

namespace Traced

-- A run with one marked action, behind all others, or one that stops in front of it.
inductive Marked (mark : α → Bool) (run : Run ε α σ) : Prop where
  | passed : run.acts = body ++ [last] → (∀ a ∈ body, mark a = false) → mark last = true → Marked mark run
  | stopped : (∀ a ∈ run.acts, mark a = false) → (∀ s, run.out ≠ .ok s) → Marked mark run

-- In front of every action of a sort stand fewer marks, respectively at least as many.
def Early (mark : α → Bool) (n : Nat) (sort : α → Prop) (acts : List α) : Prop :=
  ∀ before e after, acts = before ++ e :: after → sort e → before.countP mark < n
def Late (mark : α → Bool) (n : Nat) (sort : α → Prop) (acts : List α) : Prop :=
  ∀ before e after, acts = before ++ e :: after → sort e → n ≤ before.countP mark

section
variable {mark : α → Bool} {sort : α → Prop} {acts front back : List α} {n : Nat}

theorem marked_chain {first : Run ε α β} {next : β → Run ε α σ} (quiet : ∀ a ∈ first.acts, mark a = false)
    (rest : ∀ value, Marked mark (next value)) : Marked mark (first >>= next) := by
  cases reached : first.out with
  | error error =>
      rw [Run.chain_error reached]
      exact .stopped quiet nofun
  | ok value =>
      rw [Run.chain_ok reached]
      cases rest value with
      | @passed body last split clean marked =>
          refine .passed (by rw [split,List.append_assoc]) (fun a member => ?_) marked
          rcases List.mem_append.mp member with before | inside
          · exact quiet a before
          · exact clean a inside
      | stopped clean never =>
          refine .stopped (fun a member => ?_) never
          rcases List.mem_append.mp member with before | inside
          · exact quiet a before
          · exact clean a inside

theorem marked_last {act : α} {run : Run ε α σ} (marked : mark act = true) (alone : run.acts = [act]) : Marked mark run :=
  @Marked.passed _ _ _ mark run [] act alone (fun _ member => absurd member List.not_mem_nil) marked

theorem marked_label {f : β → α} {run : Run ε β σ} (marked : Marked (mark ∘ f) run) : Marked mark (run.label f) := by
  cases marked with
  | @passed body last split clean marked =>
      refine .passed (by rw [Run.label_acts,split,List.map_append]; rfl) (fun a member => ?_) marked
      obtain ⟨b,inside,rfl⟩ := List.mem_map.mp member
      exact clean b inside
  | stopped clean never =>
      refine .stopped (fun a member => ?_) never
      obtain ⟨b,inside,rfl⟩ := List.mem_map.mp member
      exact clean b inside

theorem unmarked_count (clean : ∀ a ∈ acts, mark a = false) : acts.countP mark = 0 := by
  rw [List.countP_eq_zero]
  intro a member
  rw [clean a member]
  exact Bool.false_ne_true

theorem marked_early {run : Run ε α σ} (marked : Marked mark run) : Early mark 1 (fun _ => True) run.acts := by
  intro before e after split _
  suffices clean : ∀ a ∈ before, mark a = false by rw [unmarked_count clean]; exact Nat.one_pos
  cases marked with
  | @passed body last whole clean _ =>
      intro a member
      refine clean a ?_
      rw [whole] at split
      have inside : before <+: body := List.prefix_of_prefix_length_le ⟨e :: after,split.symm⟩ (List.prefix_append _ _) (by
        have lengths := congrArg List.length split
        simp only [List.length_append,List.length_cons,List.length_nil] at lengths
        omega)
      exact inside.subset member
  | stopped clean _ => exact fun a member => clean a (by rw [split]; exact List.mem_append_left _ member)

theorem marked_count {run : Run ε α σ} (marked : Marked mark run) : run.acts.countP mark ≤ 1 ∧ ∀ s, run.out = .ok s → run.acts.countP mark = 1 := by
  cases marked with
  | passed whole clean last =>
      have one : run.acts.countP mark = 1 := by rw [whole,List.countP_append,unmarked_count clean]; simp [last]
      exact ⟨Nat.le_of_eq one,fun _ _ => one⟩
  | stopped clean never => exact ⟨by rw [unmarked_count clean]; exact Nat.zero_le 1,fun s ended => absurd ended (never s)⟩

theorem early_append (left : Early mark n sort front) (below : front.countP mark ≤ k) (right : Early mark m sort back)
    (most : n ≤ k + m) : Early mark (k+m) sort (front ++ back) := by
  intro before e after split known
  rcases append_split split with ⟨rest,here,_⟩ | ⟨rest,rfl,later⟩
  · exact Nat.lt_of_lt_of_le (left before e rest here known) most
  · have inside := right rest e after later known
    rw [List.countP_append]
    omega

-- A loop of such passes: so many marks at most, exactly as many if it ends, and fewer in front of
-- each of its actions.
theorem marked_loop {body : Nat → σ → Run ε α σ} (each : ∀ i s, Marked mark (body i s)) (first count : Nat) (s : σ) :
    Early mark count (fun _ => True) (forFrom body first count s).acts ∧ (forFrom body first count s).acts.countP mark ≤ count ∧
      ∀ t, (forFrom body first count s).out = .ok t → (forFrom body first count s).acts.countP mark = count := by
  induction count generalizing first s with
  | zero => exact ⟨fun before e after split _ => absurd split.symm (by simp [forFrom]),Nat.le_refl 0,fun _ _ => rfl⟩
  | succ count ih =>
      have here := marked_early (each first s)
      obtain ⟨most,one⟩ := marked_count (each first s)
      rw [forFrom]
      cases reached : (body first s).out with
      | error error =>
          rw [Run.chain_error reached]
          refine ⟨fun before e after split known => Nat.lt_of_lt_of_le (here before e after split known) (by omega),
            Nat.le_trans most (by omega),fun t ended => ?_⟩
          cases ended
      | ok next =>
          obtain ⟨early,few,all⟩ := ih (first+1) next
          rw [Run.chain_ok reached,Nat.add_comm count 1]
          refine ⟨early_append here most early (by omega),?_,fun t ended => ?_⟩
          · rw [List.countP_append]
            omega
          · rw [List.countP_append,one next reached,all t ended]

-- Around the loop stands nothing of the sort, and in front of it no mark.
theorem early_around {middle : List α} (early : Early mark n (fun _ => True) middle) (quiet : ∀ a ∈ front, mark a = false ∧ ¬ sort a)
    (nothing : ∀ a ∈ back, ¬ sort a) : Early mark n sort (front ++ (middle ++ back)) := by
  intro before e after split known
  rcases append_split split with ⟨rest,here,_⟩ | ⟨rest,rfl,later⟩
  · exact absurd known (quiet e (by rw [here]; simp)).2
  · rcases append_split later with ⟨more,here,_⟩ | ⟨more,_,behind⟩
    · rw [List.countP_append,unmarked_count fun a member => (quiet a member).1,Nat.zero_add]
      exact early rest e more here trivial
    · exact absurd known (nothing e (by rw [behind]; simp))

-- Behind so many marks, the first of the sort.
theorem late_behind (enough : n ≤ front.countP mark) (nothing : ∀ a ∈ front, ¬ sort a) (back : List α) : Late mark n sort (front ++ back) := by
  intro before e after split known
  rcases append_split split with ⟨rest,here,_⟩ | ⟨rest,rfl,_⟩
  · exact absurd known (nothing e (by rw [here]; simp))
  · rw [List.countP_append]
    omega

theorem late_none (nothing : ∀ a ∈ acts, ¬ sort a) : Late mark n sort acts := by
  rintro before e after rfl known
  exact absurd known (nothing e (by simp))

end
end Traced

namespace Collective
open Traced

theorem kinds_count (kind : α → Option Kind) (k : Kind) (acts : List α) : (kinds kind acts).count k = acts.countP fun a => kind a == some k := by
  rw [kinds,List.count_eq_countP,List.countP_filterMap]
  exact List.countP_congr fun a _ => by cases kind a <;> simp

namespace System
variable {sys : System ρ α} {cfg : Config ρ} {r : ρ} {sort last : α → Prop} {e f : α} {k : Kind} {n : Nat}

-- What a rank does only behind its n-th call of a kind it has done only when that has returned.
theorem late_returned (late : Late (fun a => sys.kind a == some k) n last (sys.acts r)) (done : f ∈ sys.finished cfg r) (ends : last f) :
    n ≤ sys.returned cfg r k := by
  obtain ⟨before,after,split⟩ := List.append_of_mem done
  have whole : sys.acts r = before ++ f :: (after ++ (sys.acts r).drop (cfg r).done) := by
    rw [← List.cons_append,← List.append_assoc,← split,finished,List.take_append_drop]
  rw [returned,kinds_count,split,List.countP_append]
  exact Nat.le_trans (late _ _ _ whole ends) (Nat.le_add_right _ _)

-- A rank at what it does in front of its n-th call has not entered that.
theorem early_entered (early : Early (fun a => sys.kind a == some k) n sort (sys.acts r)) (here : sys.current cfg r = some e)
    (quiet : sys.kind e = none) (known : sort e) : sys.entered cfg r k < n := by
  obtain ⟨bound,same⟩ := List.getElem?_eq_some_iff.mp here
  have stands := early ((sys.acts r).take (cfg r).done) e ((sys.acts r).drop ((cfg r).done+1))
    (by rw [← same,← List.drop_eq_getElem_cons bound,List.take_append_drop]) known
  have outside : sys.entered cfg r k = sys.returned cfg r k := by simp [entered,here,quiet]
  rw [outside,returned,kinds_count]
  exact stands

-- Where the root does something only behind its n-th Gather, and another rank stands in front of
-- its own n-th, the root has not done it; and so for any two ranks and their n-th Barrier.
theorem gather_keeps (ordered : sys.Ordered cfg) (early : Early (fun a => sys.kind a == some .gather) n sort (sys.acts r))
    (late : Late (fun a => sys.kind a == some .gather) n last (sys.acts sys.root))
    (here : sys.current cfg r = some e) (quiet : sys.kind e = none) (known : sort e) : ∀ f ∈ sys.finished cfg sys.root, ¬ last f := by
  intro f done ends
  have passed := late_returned late done ends
  have come := early_entered early here quiet known
  have waited := ordered.gather r
  omega

theorem barrier_keeps {q : ρ} (ordered : sys.Ordered cfg) (early : Early (fun a => sys.kind a == some .barrier) n sort (sys.acts r))
    (late : Late (fun a => sys.kind a == some .barrier) n last (sys.acts q))
    (here : sys.current cfg r = some e) (quiet : sys.kind e = none) (known : sort e) : ∀ f ∈ sys.finished cfg q, ¬ last f := by
  intro f done ends
  have passed := late_returned late done ends
  have come := early_entered early here quiet known
  have waited := ordered.barrier q r
  omega

end System
end Collective
