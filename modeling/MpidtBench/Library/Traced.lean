import Mathlib.Data.List.Nodup
import Mathlib.Logic.Function.Basic

namespace Traced

-- What a piece of code did: the actions it issued, in order, and how it ended.
-- The actions issued before an error stay in the record.
structure Run (ε α β : Type) where
  acts : List α
  out : Except ε β

namespace Run

def fail (error : ε) : Run ε α β := ⟨[],.error error⟩
def emit (act : α) : Run ε α Unit := ⟨[act],.ok ()⟩
def chain (first : Run ε α β) (next : β → Run ε α γ) : Run ε α γ :=
  match first.out with
  | .error error => ⟨first.acts,.error error⟩
  | .ok value => ⟨first.acts ++ (next value).acts,(next value).out⟩
instance : Monad (Run ε α) where
  pure value := ⟨[],.ok value⟩
  bind := chain

-- The same run with every action renamed, for instance stamped with where it stands.
def label (f : α → β) (run : Run ε α γ) : Run ε β γ := ⟨run.acts.map f,run.out⟩

@[simp] theorem label_acts (f : α → β) (run : Run ε α γ) : (run.label f).acts = run.acts.map f := rfl
@[simp] theorem label_out (f : α → β) (run : Run ε α γ) : (run.label f).out = run.out := rfl
@[simp] theorem pure_acts (value : β) : (pure value : Run ε α β).acts = [] := rfl
@[simp] theorem pure_out (value : β) : (pure value : Run ε α β).out = .ok value := rfl
@[simp] theorem emit_acts (act : α) : (emit act : Run ε α Unit).acts = [act] := rfl
@[simp] theorem emit_out (act : α) : (emit act : Run ε α Unit).out = .ok () := rfl
@[simp] theorem fail_acts (error : ε) : (fail error : Run ε α β).acts = [] := rfl
@[simp] theorem fail_out (error : ε) : (fail error : Run ε α β).out = .error error := rfl
@[simp] theorem pure_chain (value : β) (next : β → Run ε α γ) : (pure value >>= next) = next value := rfl
@[simp] theorem emit_chain (act : α) (next : Unit → Run ε α γ) :
    (emit act >>= next) = ⟨act :: (next ()).acts,(next ()).out⟩ := rfl
@[simp] theorem fail_chain (error : ε) (next : β → Run ε α γ) : (fail error >>= next) = fail error := rfl

@[simp] theorem ok_chain (acts : List α) (value : β) (next : β → Run ε α γ) :
    ((⟨acts,.ok value⟩ : Run ε α β) >>= next) = ⟨acts ++ (next value).acts,(next value).out⟩ := rfl
@[simp] theorem error_chain (acts : List α) (error : ε) (next : β → Run ε α γ) :
    ((⟨acts,.error error⟩ : Run ε α β) >>= next) = ⟨acts,.error error⟩ := rfl

theorem chain_ok (ended : first.out = .ok value) (next : β → Run ε α γ) :
    (first >>= next) = ⟨first.acts ++ (next value).acts,(next value).out⟩ := by
  change chain first next = _
  simp only [chain,ended]

theorem chain_error (ended : first.out = .error error) (next : β → Run ε α γ) :
    (first >>= next) = ⟨first.acts,.error error⟩ := by
  change chain first next = _
  simp only [chain,ended]

theorem chain_parts {first : Run ε α β} {next : β → Run ε α γ} (ended : (first >>= next).out = .ok value) :
    ∃ middle, first.out = .ok middle ∧ (next middle).out = .ok value ∧
      (first >>= next).acts = first.acts ++ (next middle).acts := by
  cases reached : first.out with
  | error error => rw [chain_error reached] at ended; cases ended
  | ok middle =>
      rw [chain_ok reached] at ended ⊢
      exact ⟨middle,rfl,ended,rfl⟩

theorem chain_assoc (first : Run ε α β) (second : β → Run ε α γ) (third : γ → Run ε α δ) :
    (first >>= second >>= third) = (first >>= fun value => second value >>= third) := by
  cases reached : first.out with
  | error error => rw [chain_error reached,chain_error reached]; rfl
  | ok value =>
      rw [chain_ok reached,chain_ok reached]
      cases middle : (second value).out with
      | error error => rw [chain_error rfl,chain_error middle]
      | ok last => rw [chain_ok rfl,chain_ok middle,List.append_assoc]

theorem chain_pure_acts (first : Run ε α β) (f : β → γ) : (first >>= fun value => pure (f value)).acts = first.acts := by
  cases reached : first.out with
  | error error => rw [chain_error reached]
  | ok value => rw [chain_ok reached,pure_acts,List.append_nil]

theorem chain_extends (first : Run ε α β) (next : β → Run ε α γ) : ∃ more, (first >>= next).acts = first.acts ++ more := by
  cases reached : first.out with
  | error error => exact ⟨[],by rw [chain_error reached,List.append_nil]⟩
  | ok value => exact ⟨(next value).acts,by rw [chain_ok reached]⟩

theorem chain_keeps (first : Run ε α β) (next : β → Run ε α γ) (member : a ∈ first.acts) : a ∈ (first >>= next).acts := by
  obtain ⟨more,extended⟩ := chain_extends first next
  rw [extended]
  exact List.mem_append_left _ member

theorem emit_each {property : α → Prop} (holds : property act) : ∀ a ∈ (emit act : Run ε α Unit).acts, property a := by
  intro a member
  rw [List.mem_singleton.mp member]
  exact holds

theorem chain_acts (property : α → Prop) {first : Run ε α β} {next : β → Run ε α γ} (here : ∀ a ∈ first.acts, property a)
    (later : ∀ value, ∀ a ∈ (next value).acts, property a) : ∀ a ∈ (first >>= next).acts, property a := by
  intro a member
  cases reached : first.out with
  | error error => rw [chain_error reached] at member; exact here a member
  | ok value =>
      rw [chain_ok reached] at member
      rcases List.mem_append.mp member with front | rest
      · exact here a front
      · exact later value a rest

end Run
open Run (fail emit chain_ok chain_error chain_assoc chain_keeps chain_acts)

-- `for (i = first; i < first + count; i++) body`, threading a state.
def forFrom (body : Nat → σ → Run ε α σ) : Nat → Nat → σ → Run ε α σ
  | _,0,s => pure s
  | i,count+1,s => body i s >>= forFrom body (i+1) count

def forRange (count : Nat) (body : Nat → σ → Run ε α σ) (s : σ) : Run ε α σ := forFrom body 0 count s

-- The loop rule: what one pass carries from index `i` to `i+1`, together with the
-- actions issued so far, the whole loop carries to its end.
theorem forFrom_invariant (invariant : Nat → List α → σ → Prop) {body : Nat → σ → Run ε α σ}
    (step : ∀ i acts s, i < first + count → first ≤ i → invariant i acts s →
      ∃ next, (body i s).out = .ok next ∧ invariant (i+1) (acts ++ (body i s).acts) next)
    (initial : invariant first acts s) :
    ∃ next, (forFrom body first count s).out = .ok next ∧
      invariant (first + count) (acts ++ (forFrom body first count s).acts) next := by
  induction count generalizing first acts s with
  | zero => exact ⟨s,rfl,by simpa [forFrom] using initial⟩
  | succ count ih =>
      obtain ⟨next,ended,carried⟩ := step first acts s (by omega) (Nat.le_refl _) initial
      obtain ⟨last,finished,holds⟩ := ih (fun i acts s below above => step i acts s (by omega) (by omega)) carried
      simp only [forFrom,chain_ok ended]
      refine ⟨last,finished,?_⟩
      rw [show first + (count + 1) = first + 1 + count by omega,← List.append_assoc]
      exact holds

theorem forRange_invariant (invariant : Nat → List α → σ → Prop) {body : Nat → σ → Run ε α σ}
    (step : ∀ i acts s, i < count → invariant i acts s →
      ∃ next, (body i s).out = .ok next ∧ invariant (i+1) (acts ++ (body i s).acts) next)
    (initial : invariant 0 [] s) :
    ∃ next, (forRange count body s).out = .ok next ∧ invariant count (forRange count body s).acts next := by
  obtain ⟨next,ended,holds⟩ := forFrom_invariant invariant
    (fun i acts s (below : i < 0 + count) _ => step i acts s (by omega)) initial
  exact ⟨next,ended,by simpa [forRange] using holds⟩

theorem forFrom_exact {body : Nat → σ → Run ε α σ} (acts : Nat → List α) (state : Nat → σ)
    (step : ∀ i, first ≤ i → i < first + count → body i (state i) = ⟨acts i,.ok (state (i+1))⟩) :
    forFrom body first count (state first) =
      ⟨(List.range' first count).flatMap acts,.ok (state (first + count))⟩ := by
  induction count generalizing first with
  | zero => rfl
  | succ count ih =>
      have rest := @ih (first+1) (fun i above below => step i (by omega) (by omega))
      rw [forFrom,step first (Nat.le_refl _) (by omega),Run.ok_chain,rest,List.range'_succ,List.flatMap_cons,
        Nat.add_right_comm first 1 count,Nat.add_assoc]

theorem forRange_exact {body : Nat → σ → Run ε α σ} (acts : Nat → List α) (state : Nat → σ)
    (step : ∀ i < count, body i (state i) = ⟨acts i,.ok (state (i+1))⟩) :
    forRange count body (state 0) = ⟨(List.range count).flatMap acts,.ok (state count)⟩ := by
  have whole := forFrom_exact acts state (fun i _ (below : i < 0 + count) => step i (by omega))
  rw [forRange,whole,List.range_eq_range',Nat.zero_add]

theorem forFrom_add (body : Nat → σ → Run ε α σ) (first a b : Nat) (s : σ) :
    forFrom body first (a+b) s = (forFrom body first a s >>= forFrom body (first+a) b) := by
  induction a generalizing first s with
  | zero => rw [Nat.zero_add]; rfl
  | succ a ih =>
      rw [Nat.add_right_comm,forFrom,forFrom,chain_assoc]
      congr 1
      funext next
      rw [ih,Nat.add_right_comm first 1 a,Nat.add_assoc]

-- The loop resumed at pass `i`, the passes before it being known to succeed.
theorem forRange_resume {body : Nat → σ → Run ε α σ} (before : (forRange i body s).out = .ok u) (below : i < count) :
    forRange count body s = ⟨(forRange i body s).acts ++ (body i u >>= forFrom body (i+1) (count-(i+1))).acts,
      (body i u >>= forFrom body (i+1) (count-(i+1))).out⟩ := by
  have whole := forFrom_add body 0 i (count-(i+1)+1) s
  rw [show i + (count-(i+1)+1) = count by omega,Nat.zero_add] at whole
  unfold forRange at before ⊢
  rw [whole,chain_ok before,forFrom]

-- A loop each pass of which either carries the invariant on or stops.
theorem forFrom_cases (invariant : Nat → σ → Prop) (stopped : ε → Prop) {body : Nat → σ → Run ε α σ}
    (step : ∀ i s, first ≤ i → i < first + count → invariant i s →
      (∃ next, (body i s).out = .ok next ∧ invariant (i+1) next) ∨ ∃ error, (body i s).out = .error error ∧ stopped error)
    (initial : invariant first s) :
    (∃ last, (forFrom body first count s).out = .ok last ∧ invariant (first+count) last) ∨
      ∃ error, (forFrom body first count s).out = .error error ∧ stopped error := by
  induction count generalizing first s with
  | zero => exact .inl ⟨s,rfl,initial⟩
  | succ count ih =>
      rcases step first s (Nat.le_refl _) (by omega) initial with ⟨next,ended,carried⟩ | ⟨error,ended,stop⟩
      · rw [forFrom,chain_ok ended,show first + (count+1) = first + 1 + count by omega]
        exact ih (fun i s above below => step i s (by omega) (by omega)) carried
      · rw [forFrom,chain_error ended]
        exact .inr ⟨error,rfl,stop⟩

-- What every action of every pass has, every action of the loop has.
theorem forFrom_acts (property : α → Prop) {body : Nat → σ → Run ε α σ} (each : ∀ i s, ∀ a ∈ (body i s).acts, property a) :
    ∀ a ∈ (forFrom body first count s).acts, property a := by
  induction count generalizing first s with
  | zero => exact nofun
  | succ count ih => exact chain_acts property (each first s) fun _ => ih

theorem forFrom_rounds (invariant : Nat → σ → Prop) (property : Nat → List α → Prop) {body : Nat → σ → Run ε α σ}
    (each : ∀ i s, first ≤ i → i < first + count → invariant i s →
      ∃ next, (body i s).out = .ok next ∧ invariant (i+1) next ∧ property i (body i s).acts)
    (initial : invariant first s) :
    ∃ last, ∃ blocks : Nat → List α, forFrom body first count s = ⟨(List.range' first count).flatMap blocks,.ok last⟩ ∧
      invariant (first + count) last ∧ ∀ i, first ≤ i → i < first + count → property i (blocks i) := by
  induction count generalizing first s with
  | zero => exact ⟨s,fun _ => [],rfl,initial,by omega⟩
  | succ count ih =>
      obtain ⟨next,here,carried,holds⟩ := each first s (Nat.le_refl _) (by omega) initial
      obtain ⟨last,blocks,rest,closing,others⟩ := ih (fun i s above below => each i s (by omega) (by omega)) carried
      refine ⟨last,Function.update blocks first (body first s).acts,?_,?_,?_⟩
      · have same : (List.range' (first+1) count).flatMap (Function.update blocks first (body first s).acts) =
            (List.range' (first+1) count).flatMap blocks := by
          apply List.flatMap_congr
          intro i member
          rw [Function.update_of_ne]
          have low := (List.mem_range'_1.mp member).1
          omega
        rw [forFrom,chain_ok here,rest,List.range'_succ,List.flatMap_cons,Function.update_self,same]
      · rw [show first + (count+1) = first + 1 + count by omega]
        exact closing
      · intro i above below
        by_cases same : i = first
        · subst same
          rw [Function.update_self]
          exact holds
        · rw [Function.update_of_ne same]
          exact others i (by omega) (by omega)

theorem forRange_rounds (invariant : Nat → σ → Prop) (property : Nat → List α → Prop) {body : Nat → σ → Run ε α σ}
    (each : ∀ i s, i < count → invariant i s →
      ∃ next, (body i s).out = .ok next ∧ invariant (i+1) next ∧ property i (body i s).acts)
    (initial : invariant 0 s) :
    ∃ last, ∃ blocks : Nat → List α, forRange count body s = ⟨(List.range count).flatMap blocks,.ok last⟩ ∧
      invariant count last ∧ ∀ i < count, property i (blocks i) := by
  obtain ⟨last,blocks,run,closing,holds⟩ := forFrom_rounds invariant property
    (fun i s _ (below : i < 0 + count) => each i s (by omega)) initial
  rw [Nat.zero_add] at closing
  exact ⟨last,blocks,by rw [forRange,run,List.range_eq_range'],closing,fun i below => holds i (Nat.zero_le i) (by omega)⟩

theorem forRange_blocks (property : Nat → List α → Prop) {body : Nat → σ → Run ε α σ}
    (each : ∀ i s t, (body i s).out = .ok t → property i (body i s).acts) (ended : (forRange count body s).out = .ok t) :
    ∃ blocks : Nat → List α, (forRange count body s).acts = (List.range count).flatMap blocks ∧
      ∀ i < count, property i (blocks i) := by
  have step : ∀ i s, i < count → (forFrom body i (count-i) s).out = .ok t →
      ∃ next, (body i s).out = .ok next ∧ (forFrom body (i+1) (count-(i+1)) next).out = .ok t ∧ property i (body i s).acts := by
    intro i s below going
    rw [show count - i = count - (i+1) + 1 by omega,forFrom] at going
    obtain ⟨next,here,later,_⟩ := Run.chain_parts going
    exact ⟨next,here,later,each i s next here⟩
  obtain ⟨last,blocks,run,_,holds⟩ := forRange_rounds (fun i s => (forFrom body i (count-i) s).out = .ok t) property step ended
  exact ⟨blocks,by rw [run],holds⟩

-- An error of some sort shows in the actions: there is one that caused it.
def Signals (bad : ε → Prop) (cause : α → Prop) (run : Run ε α β) : Prop :=
  ∀ error, run.out = .error error → bad error → ∃ a ∈ run.acts, cause a

theorem signals_ok {bad : ε → Prop} {cause : α → Prop} {run : Run ε α β} (ended : run.out = .ok value) : Signals bad cause run := by
  intro error stopped
  rw [ended] at stopped
  cases stopped

theorem signals_chain {bad : ε → Prop} {cause : α → Prop} {first : Run ε α β} {next : β → Run ε α γ}
    (left : Signals bad cause first) (right : ∀ value, Signals bad cause (next value)) : Signals bad cause (first >>= next) := by
  intro error stopped wrong
  cases reached : first.out with
  | error other =>
      rw [chain_error reached] at stopped ⊢
      cases stopped
      exact left error reached wrong
  | ok value =>
      rw [chain_ok reached] at stopped ⊢
      obtain ⟨a,member,caused⟩ := right value error stopped wrong
      exact ⟨a,List.mem_append_right _ member,caused⟩

theorem signals_forFrom {bad : ε → Prop} {cause : α → Prop} {body : Nat → σ → Run ε α σ}
    (each : ∀ i s, Signals bad cause (body i s)) (first count : Nat) (s : σ) :
    Signals bad cause (forFrom body first count s) := by
  induction count generalizing first s with
  | zero => exact signals_ok rfl
  | succ count ih => exact signals_chain (each first s) fun next => ih (first+1) next

-- A while loop, one pass at a time: `.inl` goes round again, `.inr` leaves.
def loop (unfinished : ε) (body : σ → Run ε α (σ ⊕ β)) : Nat → σ → Run ε α β
  | 0,_ => fail unfinished
  | fuel+1,s => body s >>= fun
    | .inl next => loop unfinished body fuel next
    | .inr value => pure value

-- What every action of every pass has, every action of the loop has.
theorem loop_acts (property : α → Prop) (unfinished : ε) {body : σ → Run ε α (σ ⊕ β)}
    (each : ∀ s, ∀ a ∈ (body s).acts, property a) (fuel : Nat) (s : σ) : ∀ a ∈ (loop unfinished body fuel s).acts, property a := by
  induction fuel generalizing s with
  | zero => exact nofun
  | succ fuel ih =>
      refine chain_acts property (each s) fun choice => ?_
      cases choice with
      | inl next => exact ih next
      | inr value => exact nofun

-- The loop, entered at `s`, is back at its head in state `t` after `n` passes and `acts`.
inductive Visits (body : σ → Run ε α (σ ⊕ β)) : Nat → σ → List α → σ → Prop where
  | enter : Visits body 0 s [] s
  | pass : Visits body n s acts t → body t = ⟨more,.ok (.inl u)⟩ → Visits body (n+1) s (acts ++ more) u

-- The loop leaves normally, respectively stops with an error; no bound on the passes.
def Ends (body : σ → Run ε α (σ ⊕ β)) (s : σ) (acts : List α) (value : β) : Prop :=
  ∃ n before t more, Visits body n s before t ∧ body t = ⟨more,.ok (.inr value)⟩ ∧ acts = before ++ more
def Breaks (body : σ → Run ε α (σ ⊕ β)) (s : σ) (acts : List α) (error : ε) : Prop :=
  ∃ n before t more, Visits body n s before t ∧ body t = ⟨more,.error error⟩ ∧ acts = before ++ more

section
variable {body : σ → Run ε α (σ ⊕ β)}

theorem Visits.trans (left : Visits body n s first t) (right : Visits body m t second u) :
    Visits body (n+m) s (first ++ second) u := by
  induction right with
  | enter => simpa using left
  | pass _ stepped ih => simpa [← List.append_assoc,Nat.add_assoc] using (ih left).pass stepped

theorem Visits.next (visit : Visits body n s acts t) (stepped : (body t).out = .ok (.inl u)) :
    Visits body (n+1) s (acts ++ (body t).acts) u := by
  apply visit.pass
  rw [← stepped]

theorem Visits.single (stepped : body s = ⟨acts,.ok (.inl t)⟩) : Visits body 1 s acts t := by
  simpa using Visits.enter.pass stepped

theorem Visits.unique (left : Visits body n s first t) (right : Visits body n s second u) :
    first = second ∧ t = u := by
  induction left generalizing second u with
  | enter => cases right; exact ⟨rfl,rfl⟩
  | pass _ stepped ih =>
      cases right with
      | pass earlier other =>
          obtain ⟨rfl,rfl⟩ := ih earlier
          rw [stepped] at other
          injection other with acts out
          injection out with out
          injection out with out
          exact ⟨by rw [acts],out⟩

-- Every earlier pass of a visit went round again.
theorem Visits.earlier (visit : Visits body n s acts t) (before : k < n) :
    ∃ first u more v, Visits body k s first u ∧ body u = ⟨more,.ok (.inl v)⟩ := by
  induction visit with
  | enter => omega
  | @pass count _ _ _ _ _ prior stepped ih =>
      by_cases last : k = count
      · subst k; exact ⟨_,_,_,_,prior,stepped⟩
      · exact ih (by omega)

theorem Visits.invariant (invariant : List α → σ → Prop)
    (step : ∀ acts t more u, invariant acts t → body t = ⟨more,.ok (.inl u)⟩ → invariant (acts ++ more) u)
    (initial : invariant [] s) (visit : Visits body n s acts t) : invariant acts t := by
  induction visit with
  | enter => exact initial
  | pass _ stepped ih => exact step _ _ _ _ (ih initial) stepped

theorem Visits.stop_unique (left : Visits body n s first t) (leftStops : ∀ more u, body t ≠ ⟨more,.ok (.inl u)⟩)
    (right : Visits body m s second u) (rightStops : ∀ more v, body u ≠ ⟨more,.ok (.inl v)⟩) :
    first = second ∧ t = u := by
  rcases Nat.lt_trichotomy n m with below | equal | above
  · obtain ⟨_,w,more,v,visit,again⟩ := right.earlier below
    obtain ⟨_,rfl⟩ := left.unique visit
    exact absurd again (leftStops _ _)
  · subst m; exact left.unique right
  · obtain ⟨_,w,more,v,visit,again⟩ := left.earlier above
    obtain ⟨_,rfl⟩ := right.unique visit
    exact absurd again (rightStops _ _)

theorem Visits.bounded (stop : Visits body n s first t) (stops : ∀ more u, body t ≠ ⟨more,.ok (.inl u)⟩)
    (visit : Visits body m s second u) : m ≤ n := by
  apply Nat.le_of_not_lt
  intro beyond
  obtain ⟨_,w,more,v,earlier,again⟩ := visit.earlier beyond
  obtain ⟨_,rfl⟩ := stop.unique earlier
  exact stops _ _ again

theorem Visits.front (stepped : body s = ⟨acts,.ok (.inl t)⟩) (visit : Visits body (n+1) s whole u) : ∃ rest, whole = acts ++ rest := by
  induction n generalizing whole u with
  | zero =>
      obtain ⟨rfl,rfl⟩ := (Visits.single stepped).unique visit
      exact ⟨[],(List.append_nil _).symm⟩
  | succ n ih =>
      cases visit with
      | pass prior _ =>
          obtain ⟨rest,rfl⟩ := ih prior
          exact ⟨_,List.append_assoc _ _ _⟩

theorem Ends.front (stepped : body s = ⟨acts,.ok (.inl t)⟩) (ended : Ends body s whole value) : ∃ rest, whole = acts ++ rest := by
  obtain ⟨n,before,u,more,visit,left,rfl⟩ := ended
  cases n with
  | zero => cases visit; rw [stepped] at left; cases left
  | succ n =>
      obtain ⟨rest,rfl⟩ := visit.front stepped
      exact ⟨_,List.append_assoc _ _ _⟩

theorem Ends.after (stepped : body s = ⟨acts,.ok (.inl t)⟩) (ended : Ends body t rest value) : Ends body s (acts ++ rest) value := by
  obtain ⟨n,before,u,more,visit,left,rfl⟩ := ended
  exact ⟨1+n,acts ++ before,u,more,(Visits.single stepped).trans visit,left,(List.append_assoc _ _ _).symm⟩

-- Two bodies that agree wherever one of them gets to.
theorem Visits.same {other : σ → Run ε α (σ ⊕ β)} (agree : ∀ n acts t, Visits body n s acts t → other t = body t)
    (visit : Visits body n s acts t) : Visits other n s acts t := by
  induction visit with
  | enter => exact .enter
  | pass prior stepped ih => exact (ih agree).pass (by rw [agree _ _ _ prior]; exact stepped)

theorem Ends.same {other : σ → Run ε α (σ ⊕ β)} (agree : ∀ n acts t, Visits body n s acts t → other t = body t)
    (ended : Ends body s acts value) : Ends other s acts value := by
  obtain ⟨n,before,t,more,visit,left,whole⟩ := ended
  exact ⟨n,before,t,more,visit.same agree,by rw [agree _ _ _ visit]; exact left,whole⟩

theorem Ends.unique (left : Ends body s first value) (right : Ends body s second other) :
    first = second ∧ value = other := by
  obtain ⟨n,_,t,_,visit,left,rfl⟩ := left
  obtain ⟨m,_,u,_,visit',right,rfl⟩ := right
  obtain ⟨rfl,rfl⟩ := visit.stop_unique (by simp [left]) visit' (by simp [right])
  rw [left] at right
  simpa using right

theorem Ends.not_breaks (ended : Ends body s first value) (broke : Breaks body s second error) : False := by
  obtain ⟨n,_,t,_,visit,left,rfl⟩ := ended
  obtain ⟨m,_,u,_,visit',right,rfl⟩ := broke
  obtain ⟨rfl,rfl⟩ := visit.stop_unique (by simp [left]) visit' (by simp [right])
  rw [left] at right
  simp at right

theorem Visits.loop (visit : Visits body n s acts t) (unfinished : ε) (fuel : Nat) :
    loop unfinished body (n+fuel) s =
      ⟨acts ++ (loop unfinished body fuel t).acts,(loop unfinished body fuel t).out⟩ := by
  induction visit generalizing fuel with
  | enter => simp
  | @pass n s acts t more u _ stepped ih =>
      rw [show n + 1 + fuel = n + (fuel+1) by omega,ih (fuel+1)]
      simp [Traced.loop,stepped]

-- Enough fuel, that is more than the passes made, gives the result.
theorem loop_ends (visit : Visits body n s before t) (ended : body t = ⟨more,.ok (.inr value)⟩)
    (enough : n < fuel) (unfinished : ε) :
    loop unfinished body fuel s = ⟨before ++ more,.ok value⟩ := by
  obtain ⟨extra,rfl⟩ : ∃ extra, fuel = n + (extra+1) := ⟨fuel - n - 1,by omega⟩
  rw [visit.loop unfinished (extra+1)]
  simp [loop,ended]

theorem loop_sound (ended : (loop unfinished body fuel s).out = .ok value) :
    Ends body s (loop unfinished body fuel s).acts value := by
  induction fuel generalizing s with
  | zero => cases ended
  | succ fuel ih =>
      cases reached : (body s).out with
      | error error => simp [loop,chain_error reached] at ended
      | ok choice =>
          simp only [loop,chain_ok reached] at ended ⊢
          cases choice with
          | inr last =>
              simp only [Run.pure_out,Except.ok.injEq] at ended
              subst ended
              exact ⟨0,[],s,(body s).acts,.enter,by rw [← reached],by simp⟩
          | inl next =>
              obtain ⟨n,before,t,more,visit,left,whole⟩ := ih ended
              refine ⟨1+n,(body s).acts ++ before,t,more,(Visits.single ?_).trans visit,left,?_⟩
              · rw [← reached]
              · simp [whole]

end
theorem range_split (below : j < count) : List.range count = List.range j ++ j :: List.range' (j+1) (count-(j+1)) := by
  rw [List.range_eq_range',List.range_eq_range',show count = j + (1 + (count-(j+1))) by omega,← List.range'_append_1,
    ← List.range'_append_1]
  simp [show j + (1 + (count-(j+1))) - (j+1) = count-(j+1) by omega]

theorem append_split {first second before after : List α} (split : first ++ second = before ++ e :: after) :
    (∃ rest, first = before ++ e :: rest ∧ after = rest ++ second) ∨ ∃ rest, before = first ++ rest ∧ second = rest ++ e :: after := by
  rcases List.append_eq_append_iff.mp split with ⟨rest,front,back⟩ | ⟨rest,front,back⟩
  · exact .inr ⟨rest,front,back⟩
  · cases rest with
    | nil => exact .inr ⟨[],by rw [front,List.append_nil,List.append_nil],by simpa using back.symm⟩
    | cons head rest =>
        simp only [List.cons_append,List.cons.injEq] at back
        obtain ⟨rfl,behind⟩ := back
        exact .inl ⟨rest,front,behind⟩

-- One element of a list alone contributes.
theorem flatMap_single {list : List α} {f : α → List β} (distinct : list.Nodup) (member : x ∈ list)
    (others : ∀ y ∈ list, y ≠ x → f y = []) : list.flatMap f = f x := by
  obtain ⟨front,back,rfl⟩ := List.append_of_mem member
  have apart := List.nodup_middle.mp distinct
  have absent := (List.nodup_cons.mp apart).1
  have nothing : ∀ part : List α, (∀ y ∈ part, y ∈ front ++ back) → part.flatMap f = [] := by
    intro part inside
    apply List.flatMap_eq_nil_iff.mpr
    intro y present
    have there := inside y present
    refine others y ?_ fun same => absent (same ▸ there)
    rcases List.mem_append.mp there with before | behind
    · exact List.mem_append_left _ before
    · exact List.mem_append_right _ (List.mem_cons_of_mem _ behind)
  rw [List.flatMap_append,List.flatMap_cons,nothing front fun _ => List.mem_append_left _,
    nothing back fun _ => List.mem_append_right _,List.nil_append,List.append_nil]

def carrying [DecidableEq τ] (stamp : τ) (acts : List (τ × α)) : List α :=
  acts.filterMap fun event => if event.1 = stamp then some event.2 else none

theorem carrying_block [DecidableEq τ] (block : List α) (own stamp : τ) :
    carrying stamp (block.map (Prod.mk own)) = if own = stamp then block else [] := by
  rw [carrying,List.filterMap_map]
  split
  · rename_i same
    simp [same]
  · rename_i apart
    simp [apart]

-- A loop whose passes are labelled apart gives each pass back.
theorem carrying_blocks [DecidableEq τ] {label : ι → τ} (apart : ∀ i j, label i = label j → i = j) {indices : List ι}
    (distinct : indices.Nodup) (member : i ∈ indices) (blocks : ι → List α) :
    carrying (label i) (indices.flatMap fun j => (blocks j).map (Prod.mk (label j))) = blocks i := by
  have parts : carrying (label i) (indices.flatMap fun j => (blocks j).map (Prod.mk (label j))) =
      indices.flatMap fun j => if label j = label i then blocks j else [] := by
    rw [carrying,List.filterMap_flatMap]
    exact List.flatMap_congr fun j _ => carrying_block (blocks j) (label j) (label i)
  rw [parts,flatMap_single distinct member fun j _ other => if_neg fun same => other (apart j i same)]
  exact if_pos rfl

end Traced
