import MpidtBench.Library.Collective
import MpidtBench.Library.Traced

namespace Collective

-- `e` stands in the action list with exactly `s` collective calls in front of it.
def Located (kind : α → Option Kind) (acts : List α) (e : α) (s : Nat) : Prop :=
  ∃ before after, acts = before ++ e :: after ∧ (kinds kind before).length = s

section
variable {kind : α → Option Kind} {acts : List α} {e : α} {s : Nat}

theorem located_append (first second : List α) : Located kind (first ++ second) e s ↔
    Located kind first e s ∨ ∃ t, Located kind second e t ∧ s = (kinds kind first).length + t := by
  constructor
  · intro given
    obtain ⟨before,after,equal,count⟩ := given
    rcases List.append_eq_append_iff.mp equal with ⟨rest,front,back⟩ | ⟨rest,front,back⟩
    · refine .inr ⟨(kinds kind rest).length,⟨rest,after,back,rfl⟩,?_⟩
      rw [← count,front,kinds_append,List.length_append]
    · cases rest with
      | nil =>
          refine .inr ⟨0,⟨[],after,by simpa using back.symm,rfl⟩,?_⟩
          rw [← count,front,List.append_nil,Nat.add_zero]
      | cons head rest =>
          simp only [List.cons_append,List.cons.injEq] at back
          obtain ⟨rfl,_⟩ := back
          exact .inl ⟨before,rest,front,count⟩
  · intro given
    rcases given with ⟨before,after,rfl,count⟩ | ⟨t,⟨before,after,rfl,count⟩,rfl⟩
    · exact ⟨before,after ++ second,by simp,count⟩
    · refine ⟨first ++ before,after,by simp,?_⟩
      rw [kinds_append,List.length_append,count]

theorem located_mem (located : Located kind acts e s) : e ∈ acts := by
  obtain ⟨before,after,rfl,_⟩ := located
  simp

theorem located_local (quiet : ∀ a ∈ acts, kind a = none) : Located kind acts e s ↔ e ∈ acts ∧ s = 0 := by
  constructor
  · intro given
    obtain ⟨before,after,rfl,count⟩ := given
    rw [kinds_local (fun a member => quiet a (by simp [member]))] at count
    exact ⟨by simp,count.symm⟩
  · intro given
    obtain ⟨member,rfl⟩ := given
    obtain ⟨before,after,rfl⟩ := List.append_of_mem member
    exact ⟨before,after,rfl,by rw [kinds_local (fun a member => quiet a (by simp [member]))]; rfl⟩

theorem located_singleton (a : α) : Located kind [a] e s ↔ e = a ∧ s = 0 := by
  constructor
  · intro given
    obtain ⟨before,after,equal,count⟩ := given
    cases before with
    | nil => simp only [List.nil_append,List.cons.injEq] at equal; exact ⟨equal.1.symm,count.symm⟩
    | cons head rest => simp at equal
  · intro given
    obtain ⟨rfl,rfl⟩ := given
    exact ⟨[],[],rfl,rfl⟩

theorem located_map {β : Type} (f : β → α) (list : List β) :
    Located kind (list.map f) e s ↔ ∃ b, e = f b ∧ Located (kind ∘ f) list b s := by
  constructor
  · intro given
    obtain ⟨before,after,equal,count⟩ := given
    obtain ⟨front,back,rfl,rfl,rest⟩ := List.map_eq_append_iff.mp equal
    obtain ⟨b,tail,rfl,rfl,rfl⟩ := List.map_eq_cons_iff.mp rest
    exact ⟨b,rfl,front,tail,rfl,by rw [← count,kinds,kinds,List.filterMap_map]⟩
  · intro given
    obtain ⟨b,rfl,before,after,rfl,count⟩ := given
    exact ⟨before.map f,after.map f,by simp,by rw [← count,kinds,kinds,List.filterMap_map]⟩

theorem kinds_flatMap {β : Type} (list : List β) (block : β → List α) :
    kinds kind (list.flatMap block) = list.flatMap fun b => kinds kind (block b) := List.filterMap_flatMap

theorem calls_append (first second : List α) : calls kind (first ++ second) = calls kind first ++ calls kind second :=
  List.filter_append ..

theorem calls_flatMap {β : Type} (list : List β) (block : β → List α) :
    calls kind (list.flatMap block) = list.flatMap fun b => calls kind (block b) := List.filter_flatMap

theorem calls_length (acts : List α) : (calls kind acts).length = (kinds kind acts).length := by
  induction acts with
  | nil => rfl
  | cons a rest ih => cases call : kind a <;> simpa [calls,kinds,call] using ih

theorem calls_take (acts : List α) (n : Nat) :
    calls kind (acts.take n) = (calls kind acts).take (kinds kind (acts.take n)).length := by
  have whole := @calls_append _ kind (acts.take n) (acts.drop n)
  rw [List.take_append_drop] at whole
  rw [whole,← calls_length,List.take_left]

theorem located_call (call : kind e = some k) (located : Located kind acts e s) : (kinds kind acts)[s]? = some k := by
  obtain ⟨before,after,rfl,rfl⟩ := located
  rw [kinds_append,List.getElem?_append_right (Nat.le_refl _),Nat.sub_self,kinds_call call]
  rfl

-- The `j`-th of equally long blocks and what stands in front of it.
theorem flatMap_range_split {block : Nat → List β} (same : ∀ i, (block i).length = each) (below : j < count) :
    ∃ rest, (List.range count).flatMap block = (List.range j).flatMap block ++ block j ++ rest ∧
      ((List.range j).flatMap block).length = j * each := by
  refine ⟨((List.range' (j+1) (count-(j+1))).flatMap block),?_,by simp [List.length_flatMap,same]⟩
  rw [Traced.range_split below]
  simp

theorem kinds_flatMap_length {block : Nat → List α} (same : ∀ i < count, (kinds kind (block i)).length = each) :
    (kinds kind ((List.range count).flatMap block)).length = count * each := by
  induction count with
  | zero => simp [kinds]
  | succ count ih =>
      rw [List.range_succ,List.flatMap_append,kinds_append,List.length_append,ih (fun i below => same i (by omega)),
        List.flatMap_singleton,same count (by omega),Nat.succ_mul]

theorem located_flatMap {block : Nat → List α} (same : ∀ i < count, (kinds kind (block i)).length = each) :
    Located kind ((List.range count).flatMap block) e s ↔
      ∃ i < count, ∃ t, Located kind (block i) e t ∧ s = i * each + t := by
  induction count generalizing s with
  | zero =>
      simp only [List.range_zero,List.flatMap_nil,Nat.not_lt_zero,false_and,exists_false,iff_false]
      intro located
      exact absurd (located_mem located) (by simp)
  | succ count ih =>
      have inner := fun i below => same i (Nat.lt_succ_of_lt below)
      rw [List.range_succ,List.flatMap_append,List.flatMap_singleton,located_append,ih inner,kinds_flatMap_length inner]
      constructor
      · intro given
        rcases given with ⟨i,below,t,located,rfl⟩ | ⟨t,located,rfl⟩
        · exact ⟨i,by omega,t,located,rfl⟩
        · exact ⟨count,by omega,t,located,rfl⟩
      · intro given
        obtain ⟨i,below,t,located,rfl⟩ := given
        by_cases last : i = count
        · subst last; exact .inr ⟨t,located,rfl⟩
        · exact .inl ⟨i,by omega,t,located,rfl⟩

end

-- If `x` calls on one list count for no more than `y` on the other, and the lists agree
-- up to their call `i`, which is of the kind counted, then `x > i` gives `y > i`.
theorem lag {first second : List Kind} (agree : first.take (i+1) = second.take (i+1)) (here : first[i]? = some k)
    (counted : (first.take x).count k ≤ (second.take y).count k) (past : i < x) : i < y := by
  apply Classical.byContradiction
  intro behind
  have one : (first.take (i+1)).count k = (first.take i).count k + 1 := by
    rw [List.take_add_one,here]
    simp
  have shorter : first.take i = second.take i := by
    have cut := congrArg (List.take i) agree
    simpa [List.take_take] using cut
  have low : (second.take y).count k ≤ (second.take i).count k :=
    List.Sublist.count_le k (List.take_sublist_take_left (by omega))
  have high : (first.take (i+1)).count k ≤ (first.take x).count k :=
    List.Sublist.count_le k (List.take_sublist_take_left (by omega))
  rw [shorter] at one
  omega

namespace System
variable {sys : System ρ α} {cfg : Config ρ} {r q : ρ} {e c : α} {i s : Nat}

-- The calls in the order issued, as kinds.
def schedule (sys : System ρ α) (r : ρ) : List Kind := kinds sys.kind (sys.acts r)

theorem returned_take : sys.returned cfg r k = ((sys.schedule r).take (sys.left cfg r)).count k := by
  rw [returned,left,schedule,finished,← kinds_take]

theorem entered_take (ordered : Ordered sys cfg) :
    sys.entered cfg r k = ((sys.schedule r).take (sys.begun cfg r)).count k := by
  cases inside : (cfg r).inside with
  | false => simp [entered,begun,inside,returned_take]
  | true =>
      obtain ⟨a,j,known,call⟩ := ordered.valid r inside
      have next := kinds_take_succ known call
      have grown : (sys.schedule r).take (sys.left cfg r + 1) = kinds sys.kind ((sys.acts r).take ((cfg r).done+1)) := by
        rw [kinds_take (sys.acts r) ((cfg r).done+1),next,List.length_append]
        rfl
      rw [entered_inside inside known call,begun,inside,Bool.toNat_true,grown,next,List.count_append,
        List.count_singleton,returned,finished]
      simp [beq_iff_eq]

theorem bcast_lag (ordered : Ordered sys cfg) (apart : r ≠ sys.root)
    (agree : (sys.schedule r).take (i+1) = (sys.schedule sys.root).take (i+1))
    (here : (sys.schedule r)[i]? = some .bcast) (past : i < sys.left cfg r) : i < sys.begun cfg sys.root := by
  have bound := ordered.bcast r apart
  rw [returned_take,entered_take ordered] at bound
  exact lag agree here bound past

theorem gather_lag (ordered : Ordered sys cfg)
    (agree : (sys.schedule sys.root).take (i+1) = (sys.schedule q).take (i+1))
    (here : (sys.schedule sys.root)[i]? = some .gather) (past : i < sys.left cfg sys.root) : i < sys.begun cfg q := by
  have bound := ordered.gather q
  rw [returned_take,entered_take ordered] at bound
  exact lag agree here bound past

theorem current_located (known : sys.current cfg r = some e) : Located sys.kind (sys.acts r) e (sys.left cfg r) := by
  obtain ⟨bound,rfl⟩ := List.getElem?_eq_some_iff.mp known
  refine ⟨(sys.acts r).take (cfg r).done,(sys.acts r).drop ((cfg r).done+1),?_,rfl⟩
  rw [← List.drop_eq_getElem_cons bound,List.take_append_drop]

theorem finished_located (done : e ∈ sys.finished cfg r) : ∃ s, Located sys.kind (sys.acts r) e s ∧ s ≤ sys.left cfg r := by
  obtain ⟨before,after,equal⟩ := List.append_of_mem done
  refine ⟨(kinds sys.kind before).length,⟨before,after ++ (sys.acts r).drop (cfg r).done,?_,rfl⟩,?_⟩
  · have whole := List.take_append_drop (cfg r).done (sys.acts r)
    rw [← whole]
    change sys.finished cfg r ++ _ = _
    rw [equal]
    simp
  · rw [left,equal,kinds_append,List.length_append]
    omega

-- Everything in front of a call the rank has entered, or stands at, is done.
theorem located_finished (known : sys.current cfg r = some c) (call : sys.kind c = some k) (quiet : sys.kind e = none)
    (located : Located sys.kind (sys.acts r) e s) (early : s ≤ sys.left cfg r) : e ∈ sys.finished cfg r := by
  obtain ⟨before,after,equal,count⟩ := located
  by_cases behind : before.length < (cfg r).done
  · rw [finished,equal]
    refine List.mem_iff_getElem?.mpr ⟨before.length,?_⟩
    rw [List.getElem?_take_of_lt behind]
    simp
  · exfalso
    have apart : (cfg r).done ≠ before.length := by
      intro same
      rw [current,equal,same] at known
      simp only [List.getElem?_append_right (Nat.le_refl _),Nat.sub_self,List.getElem?_cons_zero,Option.some.injEq] at known
      rw [known,call] at quiet
      cases quiet
    have prefixed : (sys.acts r).take ((cfg r).done+1) = before.take ((cfg r).done+1) := by
      rw [equal,List.take_append_of_le_length (by omega)]
    have more := kinds_take_succ known call
    rw [prefixed] at more
    have sub : (kinds sys.kind (before.take ((cfg r).done+1))).length ≤ (kinds sys.kind before).length :=
      List.Sublist.length_le (List.Sublist.filterMap _ (List.take_sublist _ _))
    rw [more,List.length_append,count] at sub
    simp only [left,finished,List.length_singleton] at early sub
    omega

-- Local actions in front of a call that a rank has begun are done.
theorem begun_finished (ordered : Ordered sys cfg) (quiet : sys.kind e = none)
    (located : Located sys.kind (sys.acts r) e s) (early : s < sys.begun cfg r) : e ∈ sys.finished cfg r := by
  cases inside : (cfg r).inside with
  | true =>
      obtain ⟨a,j,known,call⟩ := ordered.valid r inside
      apply located_finished known call quiet located
      simp only [begun,inside,Bool.toNat_true] at early
      omega
  | false =>
      obtain ⟨before,after,equal,count⟩ := located
      simp only [begun,inside,Bool.toNat_false,Nat.add_zero] at early
      by_cases behind : before.length < (cfg r).done
      · rw [finished,equal]
        refine List.mem_iff_getElem?.mpr ⟨before.length,?_⟩
        rw [List.getElem?_take_of_lt behind]
        simp
      · exfalso
        have prefixed : (sys.acts r).take (cfg r).done = before.take (cfg r).done := by
          rw [equal,List.take_append_of_le_length (by omega)]
        have sub : (kinds sys.kind (before.take (cfg r).done)).length ≤ (kinds sys.kind before).length :=
          List.Sublist.length_le (List.Sublist.filterMap _ (List.take_sublist _ _))
        simp only [left,finished,prefixed] at early
        omega

end System
end Collective
