import MpidtBench.Library.Windows

namespace Collective
open Traced (append_split)

-- A run whose local actions also change a state that the ranks share.
inductive Runs [DecidableEq ρ] (sys : System ρ α) (apply : ρ → α → σ → σ) (start : σ) : Config ρ → σ → Prop where
  | start : Runs sys apply start (fun _ => ⟨0,false⟩) start
  | act : Runs sys apply start cfg s → sys.current cfg r = some a → sys.kind a = none → (cfg r).inside = false →
      Runs sys apply start (System.put cfg r ((cfg r).done+1) false) (apply r a s)
  | enter : Runs sys apply start cfg s → sys.current cfg r = some a → sys.kind a = some k → (cfg r).inside = false →
      Runs sys apply start (System.put cfg r (cfg r).done true) s
  | leave : Runs sys apply start cfg s → sys.current cfg r = some a → sys.kind a = some k → (cfg r).inside = true →
      sys.MayReturn cfg r k → Runs sys apply start (System.put cfg r ((cfg r).done+1) false) s

-- What the actions that a rank has finished say of the shared state, whatever the others do.
structure Stable [DecidableEq ρ] (sys : System ρ α) (apply : ρ → α → σ → σ) (holds : ρ → List α → σ → Prop) : Prop where
  initial : ∀ r s, holds r [] s
  call : ∀ r done c k s, sys.kind c = some k → holds r done s → holds r (done ++ [c]) s
  own : ∀ cfg s r a, sys.Reached cfg → sys.current cfg r = some a → sys.kind a = none →
    (∀ q, holds q (sys.finished cfg q) s) → holds r (sys.finished cfg r ++ [a]) (apply r a s)
  other : ∀ cfg s r a q, q ≠ r → sys.Reached cfg → sys.current cfg r = some a → sys.kind a = none →
    (∀ q, holds q (sys.finished cfg q) s) → holds q (sys.finished cfg q) (apply r a s)

section
variable {sys : System ρ α} [DecidableEq ρ] {apply : ρ → α → σ → σ} {start s : σ} {cfg : Config ρ} {r q : ρ} {a : α}

theorem runs_reached (runs : Runs sys apply start cfg s) : sys.Reached cfg := by
  induction runs with
  | start => exact .start
  | act _ known quiet outside ih => exact .step ih (.act known quiet outside)
  | enter _ known call outside ih => exact .step ih (.enter known call outside)
  | leave _ known call inside allowed ih => exact .step ih (.leave known call inside allowed)

theorem reached_runs (apply : ρ → α → σ → σ) (start : σ) (reach : sys.Reached cfg) : ∃ s, Runs sys apply start cfg s := by
  induction reach with
  | start => exact ⟨start,.start⟩
  | step _ step ih =>
      obtain ⟨s,runs⟩ := ih
      cases step with
      | act known quiet outside => exact ⟨_,.act runs known quiet outside⟩
      | enter known call outside => exact ⟨s,.enter runs known call outside⟩
      | leave known call inside allowed => exact ⟨s,.leave runs known call inside allowed⟩

theorem finished_put (known : sys.current cfg r = some a) :
    sys.finished (System.put cfg r ((cfg r).done+1) false) r = sys.finished cfg r ++ [a] := by
  have here : (sys.acts r)[(cfg r).done]? = some a := known
  rw [System.finished,System.put_same,List.take_add_one,here]
  rfl

theorem finished_other (apart : q ≠ r) (done : Nat) (inside : Bool) :
    sys.finished (System.put cfg r done inside) q = sys.finished cfg q := by
  rw [System.finished,System.put_other apart]
  rfl

theorem finished_enter (cfg : Config ρ) (r : ρ) : sys.finished (System.put cfg r (cfg r).done true) r = sys.finished cfg r := by
  rw [System.finished,System.put_same]
  rfl

theorem runs_hold {holds : ρ → List α → σ → Prop} (stable : Stable sys apply holds) (runs : Runs sys apply start cfg s) :
    ∀ q, holds q (sys.finished cfg q) s := by
  induction runs with
  | start => exact fun q => stable.initial q _
  | @act cfg s r a runs known quiet _ ih =>
      intro q
      by_cases same : q = r
      · subst same
        rw [finished_put known]
        exact stable.own _ _ _ _ (runs_reached runs) known quiet ih
      · rw [finished_other same]
        exact stable.other _ _ _ _ q same (runs_reached runs) known quiet ih
  | @enter cfg s r a k _ _ _ _ ih =>
      intro q
      by_cases same : q = r
      · subst same
        rw [finished_enter]
        exact ih q
      · rw [finished_other same]
        exact ih q
  | @leave cfg s r a k _ known call _ _ ih =>
      intro q
      by_cases same : q = r
      · subst same
        rw [finished_put known]
        exact stable.call _ _ _ _ _ call (ih q)
      · rw [finished_other same]
        exact ih q

end

-- What a rank needs for an action behind a Bcast has been done by the root in front of that
-- Bcast, within these two lists or earlier.
def Supplied (kind : α → Option Kind) (demands meets : α → β → Prop) (earlier ours roots : List α) : Prop :=
  ∀ e t b, Located kind ours e t → demands e b → ∃ s, t = s+1 ∧ (kinds kind ours)[s]? = some .bcast ∧
    ∃ f, kind f = none ∧ meets f b ∧ (f ∈ earlier ∨ ∃ u, Located kind roots f u ∧ u ≤ s)

-- In front of every action of one sort stands all that is wanted there, with nothing in
-- between that undoes it.
def Collected (marks wipes : α → Prop) (brings : α → β → Prop) (acts : List α) : Prop :=
  ∀ before e after, acts = before ++ e :: after → marks e → ∃ front rest, before = front ++ rest ∧ (∀ a ∈ rest, ¬ wipes a) ∧
    ∀ b, ∃ a ∈ rest, brings a b

section
variable {kind : α → Option Kind} {demands meets brings : α → β → Prop} {marks wipes : α → Prop}
  {earlier ours roots first second others : List α}

theorem supplied_append (left : Supplied kind demands meets earlier ours roots)
    (right : Supplied kind demands meets (earlier ++ roots) first second) (same : (kinds kind ours).length = (kinds kind roots).length) :
    Supplied kind demands meets earlier (ours ++ first) (roots ++ second) := by
  intro e t b located demand
  rcases (located_append ours first).mp located with here | ⟨u,there,rfl⟩
  · obtain ⟨s,rfl,bcast,f,quiet,met,source⟩ := left e t b here demand
    refine ⟨s,rfl,?_,f,quiet,met,source.imp_right fun ⟨u,place,early⟩ => ⟨u,(located_append _ _).mpr (.inl place),early⟩⟩
    rw [kinds_append,List.getElem?_append_left (List.getElem?_eq_some_iff.mp bcast).1]
    exact bcast
  · obtain ⟨s,rfl,bcast,f,quiet,met,source⟩ := right e u b there demand
    refine ⟨(kinds kind ours).length + s,rfl,?_,f,quiet,met,?_⟩
    · rw [kinds_append,List.getElem?_append_right (Nat.le_add_right _ _),Nat.add_sub_cancel_left]
      exact bcast
    · rcases source with before | ⟨v,place,early⟩
      · rcases List.mem_append.mp before with old | new
        · exact .inl old
        · obtain ⟨front,back,rfl⟩ := List.append_of_mem new
          refine .inr ⟨(kinds kind front).length,(located_append _ _).mpr (.inl ⟨front,back,rfl,rfl⟩),?_⟩
          rw [same,kinds_append,List.length_append]
          omega
      · refine .inr ⟨(kinds kind roots).length + v,(located_append _ _).mpr (.inr ⟨v,place,rfl⟩),?_⟩
        omega

theorem supplied_more (supplied : Supplied kind demands meets earlier ours roots) (more : ∀ f ∈ earlier, f ∈ others) :
    Supplied kind demands meets others ours roots := by
  intro e t b located demand
  obtain ⟨s,place,bcast,f,quiet,met,source⟩ := supplied e t b located demand
  exact ⟨s,place,bcast,f,quiet,met,source.imp_left (more f)⟩

theorem supplied_none (nothing : ∀ e ∈ ours, ∀ b, ¬ demands e b) : Supplied kind demands meets earlier ours roots :=
  fun e _ b located demand => absurd demand (nothing e (located_mem located) b)

-- Blocks that are each supplied, by what stands in front of all of them or by their own.
theorem supplied_flatMap {list : List γ} {f g : γ → List α}
    (each : ∀ c ∈ list, Supplied kind demands meets earlier (f c) (g c) ∧ (kinds kind (f c)).length = (kinds kind (g c)).length) :
    Supplied kind demands meets earlier (list.flatMap f) (list.flatMap g) ∧
      (kinds kind (list.flatMap f)).length = (kinds kind (list.flatMap g)).length := by
  induction list with
  | nil => exact ⟨supplied_none fun _ member => absurd member List.not_mem_nil,rfl⟩
  | cons c rest ih =>
      obtain ⟨here,same⟩ := each c (by simp)
      obtain ⟨later,equal⟩ := ih fun other member => each other (List.mem_cons_of_mem _ member)
      rw [List.flatMap_cons,List.flatMap_cons]
      refine ⟨supplied_append here (supplied_more later fun f member => List.mem_append_left _ member) same,?_⟩
      rw [kinds_append,kinds_append,List.length_append,List.length_append,same,equal]

theorem supplied_last {last f : α} (front : Supplied kind demands meets earlier ours roots) (ends : kinds kind ours = before ++ [.bcast])
    (early : f ∈ earlier) (quiet : kind f = none) (met : ∀ b, demands last b → meets f b) (others : List α) :
    Supplied kind demands meets earlier (ours ++ [last]) (roots ++ others) := by
  intro e t b located demand
  rcases (located_append ours [last]).mp located with here | ⟨u,there,rfl⟩
  · obtain ⟨s,rfl,bcast,g,silent,provided,source⟩ := front e t b here demand
    refine ⟨s,rfl,?_,g,silent,provided,source.imp_right fun ⟨u,place,below⟩ => ⟨u,(located_append _ _).mpr (.inl place),below⟩⟩
    rw [kinds_append,List.getElem?_append_left (List.getElem?_eq_some_iff.mp bcast).1]
    exact bcast
  · obtain ⟨rfl,rfl⟩ := (located_singleton last).mp there
    refine ⟨before.length,by rw [ends]; simp,?_,f,quiet,met b demand,.inl early⟩
    rw [kinds_append,ends]
    simp

theorem supplied_window {rts f : α} {trail : List α} (bcast : kind rts = some .bcast) (nothing : ∀ b, ¬ demands rts b)
    (quiet : ∀ a ∈ trail, kind a = none) (early : f ∈ earlier) (silent : kind f = none)
    (met : ∀ a ∈ trail, ∀ b, demands a b → meets f b) (roots : List α) : Supplied kind demands meets earlier (rts :: trail) roots := by
  intro e t b located demand
  have one : (kinds kind [rts]).length = 1 := by rw [kinds_call bcast]; rfl
  rw [← List.singleton_append,located_append,located_singleton,one] at located
  rcases located with ⟨rfl,_⟩ | ⟨u,inside,rfl⟩
  · exact absurd demand (nothing b)
  · obtain ⟨member,rfl⟩ := (located_local quiet).mp inside
    exact ⟨0,rfl,by rw [kinds_call bcast]; rfl,f,silent,met e member b demand,.inl early⟩

theorem supplied_map {γ : Type} (f : γ → α) {old own root : List γ}
    (supplied : Supplied (kind ∘ f) (demands ∘ f) (meets ∘ f) old own root)
    (known : ∀ g ∈ old, ∀ b, meets (f g) b → ∃ h ∈ earlier, kind h = none ∧ meets h b) :
    Supplied kind demands meets earlier (own.map f) (root.map f) := by
  intro e t b located demand
  obtain ⟨c,rfl,inside⟩ := (located_map f own).mp located
  obtain ⟨s,place,bcast,g,quiet,met,source⟩ := supplied c t b inside demand
  have call : (kinds kind (own.map f))[s]? = some .bcast := by
    rw [kinds,List.filterMap_map]
    exact bcast
  rcases source with before | ⟨u,there,low⟩
  · obtain ⟨h,early,silent,provided⟩ := known g before b met
    exact ⟨s,place,call,h,silent,provided,.inl early⟩
  · exact ⟨s,place,call,f g,quiet,met,.inr ⟨u,(located_map f root).mpr ⟨g,rfl,there⟩,low⟩⟩

theorem collected_append (left : Collected marks wipes brings first) (right : Collected marks wipes brings second) :
    Collected marks wipes brings (first ++ second) := by
  intro before e after equal mark
  rcases append_split equal with ⟨rest,here,_⟩ | ⟨rest,rfl,later⟩
  · exact left before e rest here mark
  · obtain ⟨early,late,rfl,clean,all⟩ := right rest e after later mark
    exact ⟨first ++ early,late,(List.append_assoc _ _ _).symm,clean,all⟩

theorem collected_none (nothing : ∀ e ∈ first, ¬ marks e) : Collected marks wipes brings first := by
  rintro before e after rfl mark
  exact absurd mark (nothing e (by simp))

theorem collected_last (unmarked : ∀ a ∈ first, ¬ marks a) (clean : ∀ a ∈ first, ¬ wipes a) (all : ∀ b, ∃ a ∈ first, brings a b) (last : α) :
    Collected marks wipes brings (first ++ [last]) := by
  intro before e after equal mark
  rcases append_split equal with ⟨rest,here,_⟩ | ⟨rest,rfl,later⟩
  · exact absurd mark (unmarked e (by rw [here]; simp))
  · have nothing : rest = [] := by
      cases rest with
      | nil => rfl
      | cons head tail => simp at later
    exact ⟨[],first,by rw [nothing,List.append_nil,List.nil_append],clean,all⟩

theorem collected_behind (unmarked : ∀ a ∈ first, ¬ marks a) (clean : ∀ a, ¬ wipes a) (all : ∀ b, ∃ a ∈ first, brings a b) (second : List α) :
    Collected marks wipes brings (first ++ second) := by
  intro before e after equal mark
  rcases append_split equal with ⟨rest,here,_⟩ | ⟨rest,rfl,_⟩
  · exact absurd mark (unmarked e (by rw [here]; simp))
  · refine ⟨[],first ++ rest,rfl,fun a _ => clean a,fun b => ?_⟩
    obtain ⟨a,member,brought⟩ := all b
    exact ⟨a,List.mem_append_left _ member,brought⟩

theorem collected_map {γ : Type} (f : γ → α) {acts : List γ} (collected : Collected (marks ∘ f) (wipes ∘ f) (brings ∘ f) acts) :
    Collected marks wipes brings (acts.map f) := by
  intro before e after equal mark
  obtain ⟨front,back,rfl,rfl,rest⟩ := List.map_eq_append_iff.mp equal
  obtain ⟨c,tail,rfl,rfl,rfl⟩ := List.map_eq_cons_iff.mp rest
  obtain ⟨early,late,rfl,clean,all⟩ := collected front c tail rfl mark
  refine ⟨early.map f,late.map f,List.map_append,fun a member => ?_,fun b => ?_⟩
  · obtain ⟨d,inside,rfl⟩ := List.mem_map.mp member
    exact clean d inside
  · obtain ⟨d,inside,brought⟩ := all b
    exact ⟨f d,List.mem_map_of_mem inside,brought⟩

end

theorem System.supplied_done {sys : System ρ α} {cfg : Config ρ} {r : ρ} {demands meets : α → β → Prop} {e : α} {b : β}
    (ordered : sys.Ordered cfg) (apart : r ≠ sys.root) (uniform : sys.schedule r = sys.schedule sys.root)
    (supplied : Supplied sys.kind demands meets [] (sys.acts r) (sys.acts sys.root)) (here : sys.current cfg r = some e)
    (demand : demands e b) : ∃ f ∈ sys.finished cfg sys.root, meets f b := by
  obtain ⟨s,place,bcast,f,quiet,met,source⟩ := supplied e _ b (current_located here) demand
  have sent := bcast_lag ordered apart (by rw [uniform]) bcast (by omega)
  rcases source with nothing | ⟨u,located,early⟩
  · cases nothing
  · exact ⟨f,begun_finished ordered quiet located (by omega),met⟩

theorem System.collected_done {sys : System ρ α} {cfg : Config ρ} {r : ρ} {marks wipes : α → Prop} {brings : α → β → Prop} {e : α}
    (collected : Collected marks wipes brings (sys.acts r)) (here : sys.current cfg r = some e) (mark : marks e) :
    ∃ front rest, sys.finished cfg r = front ++ rest ∧ (∀ a ∈ rest, ¬ wipes a) ∧ ∀ b, ∃ a ∈ rest, brings a b := by
  obtain ⟨bound,rfl⟩ := List.getElem?_eq_some_iff.mp here
  refine collected _ _ ((sys.acts r).drop ((cfg r).done+1)) ?_ mark
  rw [finished,← List.drop_eq_getElem_cons bound,List.take_append_drop]

end Collective
