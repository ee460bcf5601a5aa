import MpidtBench.Library.Phases

namespace Collective

-- `closing c = some d`: the call `c` opens a phase, and the next call `d` closes it.
def Paired (kind : α → Option Kind) (closing : α → Option α) (acts : List α) : Prop :=
  ∀ s c d, (calls kind acts)[s]? = some c → closing c = some d → (calls kind acts)[s+1]? = some d

-- Nothing local is done between the two.
def Unbroken (kind : α → Option Kind) (closing : α → Option α) (acts : List α) : Prop :=
  ∀ s c d e, (calls kind acts)[s]? = some c → closing c = some d → kind e = none → ¬ Located kind acts e (s+1)

-- The last call in front of an action is one that announces it.
def Announced (kind : α → Option Kind) (reads : α → Prop) (announces : α → α → Prop) (acts : List α) : Prop :=
  ∀ e t, Located kind acts e t → reads e → ∃ s c, t = s+1 ∧ (calls kind acts)[s]? = some c ∧ announces c e

-- Every call of some sort has a local action that prepares it in front.
def Prepared (kind : α → Option Kind) (needs : α → Prop) (prepares : α → α → Prop) (acts : List α) : Prop :=
  ∀ s c, (calls kind acts)[s]? = some c → needs c → ∃ e t, Located kind acts e t ∧ t ≤ s ∧ prepares e c

section
variable {kind : α → Option Kind} {closing : α → Option α} {reads needs : α → Prop} {announces prepares : α → α → Prop}
  {acts first second : List α} {c d e : α} {s t : Nat}

theorem call_append_left (known : (calls kind first)[s]? = some c) (second : List α) :
    (calls kind (first ++ second))[s]? = some c := by
  rw [calls_append,List.getElem?_append_left (List.getElem?_eq_some_iff.mp known).1]
  exact known

theorem call_append_right (first : List α) (known : (calls kind second)[s]? = some c) :
    (calls kind (first ++ second))[(kinds kind first).length + s]? = some c := by
  rw [calls_append,← calls_length,List.getElem?_append_right (Nat.le_add_right _ _),Nat.add_sub_cancel_left]
  exact known

theorem call_append (known : (calls kind (first ++ second))[s]? = some c) :
    (calls kind first)[s]? = some c ∨ ∃ t, (calls kind second)[t]? = some c ∧ s = (kinds kind first).length + t := by
  rw [calls_append] at known
  by_cases front : s < (calls kind first).length
  · rw [List.getElem?_append_left front] at known
    exact .inl known
  · rw [List.getElem?_append_right (Nat.le_of_not_lt front)] at known
    refine .inr ⟨_,known,?_⟩
    rw [← calls_length]
    omega

theorem located_le (located : Located kind acts e s) : s ≤ (calls kind acts).length := by
  obtain ⟨before,after,rfl,rfl⟩ := located
  rw [calls_length,kinds_append,List.length_append]
  exact Nat.le_add_right _ _

theorem paired_append (left : Paired kind closing first) (right : Paired kind closing second) :
    Paired kind closing (first ++ second) := by
  intro s c d known opens
  rcases call_append known with front | ⟨t,back,rfl⟩
  · exact call_append_left (left s c d front opens) second
  · exact call_append_right first (right t c d back opens)

theorem unbroken_append (closed : Paired kind closing first) (left : Unbroken kind closing first)
    (right : Unbroken kind closing second) : Unbroken kind closing (first ++ second) := by
  intro s c d e known opens quiet located
  have places := (located_append first second).mp located
  rcases call_append known with front | ⟨t,back,rfl⟩
  · have more := (List.getElem?_eq_some_iff.mp (closed s c d front opens)).1
    rw [calls_length] at more
    rcases places with here | ⟨u,_,place⟩
    · exact left s c d e front opens quiet here
    · omega
  · rcases places with here | ⟨u,there,place⟩
    · have bound := located_le here
      rw [calls_length] at bound
      omega
    · obtain rfl : u = t + 1 := by omega
      exact right t c d e back opens quiet there

theorem announced_append (left : Announced kind reads announces first) (right : Announced kind reads announces second) :
    Announced kind reads announces (first ++ second) := by
  intro e t located read
  rcases (located_append first second).mp located with here | ⟨u,there,rfl⟩
  · obtain ⟨s,c,rfl,known,announced⟩ := left e t here read
    exact ⟨s,c,rfl,call_append_left known second,announced⟩
  · obtain ⟨s,c,rfl,known,announced⟩ := right e u there read
    exact ⟨_,c,rfl,call_append_right first known,announced⟩

theorem prepared_append (left : Prepared kind needs prepares first) (right : Prepared kind needs prepares second) :
    Prepared kind needs prepares (first ++ second) := by
  intro s c known need
  rcases call_append known with front | ⟨t,back,rfl⟩
  · obtain ⟨e,u,located,early,ready⟩ := left s c front need
    exact ⟨e,u,(located_append first second).mpr (.inl located),early,ready⟩
  · obtain ⟨e,u,located,early,ready⟩ := right t c back need
    exact ⟨e,_,(located_append first second).mpr (.inr ⟨u,located,rfl⟩),by omega,ready⟩

theorem calls_map {β : Type} (f : β → α) (list : List β) : calls kind (list.map f) = (calls (kind ∘ f) list).map f := by
  simp only [calls,List.filter_map]
  rfl

theorem paired_none (none : ∀ a ∈ acts, closing a = none) : Paired kind closing acts := by
  intro s c d known opens
  have member : c ∈ acts := (List.mem_filter.mp (List.mem_of_getElem? known)).1
  rw [none c member] at opens
  cases opens

theorem unbroken_none (none : ∀ a ∈ acts, closing a = none) : Unbroken kind closing acts := by
  intro s c d e known opens
  have member : c ∈ acts := (List.mem_filter.mp (List.mem_of_getElem? known)).1
  rw [none c member] at opens
  cases opens

theorem announced_none (none : ∀ a ∈ acts, ¬ reads a) : Announced kind reads announces acts :=
  fun e _ located read => absurd read (none e (located_mem located))

-- The list of one phase: local actions, the opening call, local actions, the closing call.
section
variable {lead trail : List α}

theorem window_calls (quiet : ∀ a ∈ lead ++ trail, kind a = none) (opening : (kind c).isSome) (closes : (kind d).isSome) :
    calls kind (lead ++ c :: (trail ++ [d])) = [c,d] := by
  have local_ : ∀ list : List α, (∀ a ∈ list, a ∈ lead ++ trail) → calls kind list = [] := by
    intro list inside
    apply List.filter_eq_nil_iff.mpr
    intro a member
    simp [quiet a (inside a member)]
  have front := local_ lead fun a member => List.mem_append_left _ member
  have back := local_ trail fun a member => List.mem_append_right _ member
  have first : calls kind (c :: (trail ++ [d])) = c :: calls kind (trail ++ [d]) := by rw [calls,List.filter_cons,if_pos opening]; rfl
  have last : calls kind [d] = [d] := by rw [calls,List.filter_cons,if_pos closes]; rfl
  rw [calls_append,front,first,calls_append,back,last]
  rfl

theorem window_located (quiet : ∀ a ∈ lead ++ trail, kind a = none) (opening : kind c = some k) :
    Located kind (lead ++ c :: (trail ++ [d])) e s ↔
      ((e ∈ lead ∨ e = c) ∧ s = 0) ∨ ((e ∈ trail ∨ e = d) ∧ s = 1) := by
  have front := fun a member => quiet a (List.mem_append_left trail member)
  have back := fun a member => quiet a (List.mem_append_right lead member)
  have one : kinds kind [c] = [k] := by simp [kinds,opening]
  rw [← List.singleton_append]
  simp only [located_append,located_singleton,located_local front,located_local back,kinds_local front,kinds_local back,one,
    List.length_nil,List.length_singleton,Nat.zero_add]
  constructor
  · intro given
    rcases given with ⟨member,rfl⟩ | ⟨t,⟨rfl,rfl⟩ | ⟨u,⟨member,rfl⟩ | ⟨v,⟨rfl,rfl⟩,rfl⟩,rfl⟩,rfl⟩
    · exact .inl ⟨.inl member,rfl⟩
    · exact .inl ⟨.inr rfl,rfl⟩
    · exact .inr ⟨.inl member,rfl⟩
    · exact .inr ⟨.inr rfl,rfl⟩
  · intro given
    rcases given with ⟨member | rfl,rfl⟩ | ⟨member | rfl,rfl⟩
    · exact .inl ⟨member,rfl⟩
    · exact .inr ⟨0,.inl ⟨rfl,rfl⟩,rfl⟩
    · exact .inr ⟨1,.inr ⟨0,.inl ⟨member,rfl⟩,rfl⟩,rfl⟩
    · exact .inr ⟨1,.inr ⟨0,.inr ⟨0,⟨rfl,rfl⟩,rfl⟩,rfl⟩,rfl⟩

theorem window_paired (quiet : ∀ a ∈ lead ++ trail, kind a = none) (opening : (kind c).isSome) (closes : (kind d).isSome)
    (pair : closing c = some d) (last : closing d = none) : Paired kind closing (lead ++ c :: (trail ++ [d])) := by
  intro s a b known opens
  rw [window_calls quiet opening closes] at known ⊢
  cases s with
  | zero => cases known; rw [pair] at opens; cases opens; rfl
  | succ s =>
      cases s with
      | zero => cases known; rw [last] at opens; cases opens
      | succ s => cases known

theorem window_unbroken (quiet : ∀ a ∈ lead, kind a = none) (opening : kind c = some k) (closes : kind d = some l)
    (last : closing d = none) : Unbroken kind closing (lead ++ [c,d]) := by
  have silent : ∀ a ∈ lead ++ [], kind a = none := by simpa using quiet
  intro s a b e known opens local_ located
  have calls_two := @window_calls _ kind c d lead [] silent (by rw [opening]; rfl) (by rw [closes]; rfl)
  have places := (@window_located _ kind c d e (s+1) lead [] k silent opening).mp located
  rw [List.nil_append] at calls_two
  rw [calls_two] at known
  rcases places with ⟨_,never⟩ | ⟨member | rfl,_⟩
  · omega
  · cases member
  · rw [closes] at local_
    cases local_

theorem window_announced (quiet : ∀ a ∈ lead ++ trail, kind a = none) (opening : kind c = some k) (closes : (kind d).isSome)
    (early : ∀ a ∈ lead ++ [c,d], ¬ reads a) (told : ∀ a ∈ trail, reads a → announces c a) :
    Announced kind reads announces (lead ++ c :: (trail ++ [d])) := by
  intro e t located read
  have two := @window_calls _ kind c d lead trail quiet (by rw [opening]; rfl) closes
  rcases (window_located quiet opening).mp located with ⟨member | rfl,_⟩ | ⟨member | rfl,rfl⟩
  · exact absurd read (early e (by simp [member]))
  · exact absurd read (early e (by simp))
  · exact ⟨0,c,rfl,by rw [two]; rfl,told e member read⟩
  · exact absurd read (early e (by simp))

end

-- What prepares a list of calls stands in front of it.
theorem prepared_front {front rest : List α} (ready : e ∈ front) (calm : ∀ a ∈ front, ¬ needs a)
    (prepared : ∀ a ∈ rest, needs a → prepares e a) : Prepared kind needs prepares (front ++ rest) := by
  intro s c known need
  obtain ⟨before,after,equal⟩ := List.append_of_mem ready
  have located : Located kind front e (kinds kind before).length := ⟨before,after,equal,rfl⟩
  rcases call_append known with here | ⟨t,there,rfl⟩
  · exact absurd need (calm c (List.mem_filter.mp (List.mem_of_getElem? here)).1)
  · have bound := located_le located
    rw [calls_length] at bound
    refine ⟨e,_,(located_append front rest).mpr (.inl located),by omega,?_⟩
    exact prepared c (List.mem_filter.mp (List.mem_of_getElem? there)).1 need

theorem flatMap_closed {property : List α → Prop} (empty : property [])
    (append : ∀ first second, property first → property second → property (first ++ second))
    {list : List β} {block : β → List α} (each : ∀ b ∈ list, property (block b)) : property (list.flatMap block) := by
  induction list with
  | nil => exact empty
  | cons b rest ih =>
      rw [List.flatMap_cons]
      exact append _ _ (each b (by simp)) (ih fun other member => each other (List.mem_cons_of_mem _ member))

theorem call_kind (known : (calls kind acts)[s]? = some c) : (kinds kind acts)[s]? = kind c := by
  induction acts generalizing s with
  | nil => cases known
  | cons a rest ih =>
      cases call : kind a with
      | none =>
          simp only [calls,kinds,List.filter_cons,List.filterMap_cons,call] at known ⊢
          exact ih known
      | some k =>
          simp only [calls,kinds,List.filter_cons,List.filterMap_cons,call] at known ⊢
          cases s with
          | zero => cases known; exact call.symm
          | succ s => exact ih known

theorem kinds_calls_take (acts : List α) (n : Nat) : (kinds kind acts).take n = kinds kind ((calls kind acts).take n) := by
  induction acts generalizing n with
  | nil => simp [kinds,calls]
  | cons a rest ih =>
      cases call : kind a with
      | none =>
          simp only [calls,kinds,List.filter_cons,List.filterMap_cons,call] at ih ⊢
          exact ih n
      | some k =>
          cases n with
          | zero => rfl
          | succ n =>
              simp only [calls,kinds,List.filter_cons,List.filterMap_cons,call,Option.isSome_some,if_true,
                List.take_succ_cons] at ih ⊢
              rw [ih n]

end

namespace System
variable {sys : System ρ α} {cfg : Config ρ} {r p q : ρ} {c d e : α} {s m n : Nat}

def trace (sys : System ρ α) (r : ρ) : List α := calls sys.kind (sys.acts r)

theorem finished_calls : calls sys.kind (sys.finished cfg r) = (sys.trace r).take (sys.left cfg r) :=
  calls_take _ _

theorem schedule_take (n : Nat) : (sys.schedule r).take n = kinds sys.kind ((sys.trace r).take n) :=
  kinds_calls_take _ _

theorem schedule_trace (sys : System ρ α) (r : ρ) : sys.schedule r = kinds sys.kind (sys.trace r) := by
  have enough : (sys.trace r).length ≤ (sys.schedule r).length := Nat.le_of_eq (calls_length _)
  have whole := @schedule_take _ _ sys r (sys.schedule r).length
  rw [List.take_length,List.take_of_length_le enough] at whole
  exact whole

theorem finished_call (call : sys.kind c = some k) : c ∈ sys.finished cfg r ↔ ∃ s < sys.left cfg r, (sys.trace r)[s]? = some c := by
  have member : c ∈ sys.finished cfg r ↔ c ∈ (sys.trace r).take (sys.left cfg r) := by
    rw [← finished_calls,calls,List.mem_filter]
    simp [call]
  rw [member]
  constructor
  · intro present
    obtain ⟨s,known⟩ := List.mem_iff_getElem?.mp present
    rw [List.getElem?_take] at known
    split at known
    · rename_i below; exact ⟨s,below,known⟩
    · cases known
  · intro given
    obtain ⟨s,below,known⟩ := given
    exact List.mem_iff_getElem?.mpr ⟨s,by rw [List.getElem?_take_of_lt below]; exact known⟩

theorem current_call (known : sys.current cfg r = some e) (call : sys.kind e = some k) :
    (sys.trace r)[sys.left cfg r]? = some e := by
  have split : sys.acts r = sys.finished cfg r ++ e :: (sys.acts r).drop ((cfg r).done+1) := by
    obtain ⟨bound,rfl⟩ := List.getElem?_eq_some_iff.mp known
    rw [← List.drop_eq_getElem_cons bound]
    exact (List.take_append_drop _ _).symm
  have rest : calls sys.kind (e :: (sys.acts r).drop ((cfg r).done+1)) =
      e :: calls sys.kind ((sys.acts r).drop ((cfg r).done+1)) := by
    rw [calls,List.filter_cons,call]
    rfl
  rw [trace,split,calls_append,rest,left,← calls_length,List.getElem?_append_right (Nat.le_refl _),Nat.sub_self]
  rfl

def Agrees (sys : System ρ α) (cfg : Config ρ) (r : ρ) : Prop :=
  (sys.trace r).take (sys.left cfg r) = (sys.trace sys.root).take (sys.left cfg r)

theorem agrees_call (agrees : sys.Agrees cfg r) (passed : s < sys.left cfg r) (known : (sys.trace r)[s]? = some c) :
    (sys.trace sys.root)[s]? = some c := by
  have same := congrArg (·[s]?) agrees
  simp only [List.getElem?_take_of_lt passed] at same
  rw [← same,known]

theorem agrees_schedule (agrees : sys.Agrees cfg r) (low : n ≤ sys.left cfg r) :
    (sys.schedule r).take n = (sys.schedule sys.root).take n := by
  have same := congrArg (List.take n) agrees
  rw [List.take_take,List.take_take,Nat.min_eq_left low] at same
  rw [schedule_take,schedule_take,same]

-- A rank that has neither done a call nor entered it has begun no more than the calls in front.
theorem pending_begun (ordered : Ordered sys cfg) (known : (sys.trace r)[n]? = some d) (call : sys.kind d = some k)
    (pending : d ∉ sys.finished cfg r) (outside : ¬ ((cfg r).inside = true ∧ sys.current cfg r = some d)) :
    sys.begun cfg r ≤ n := by
  have behind : sys.left cfg r ≤ n := by
    apply Classical.byContradiction
    intro past
    exact pending ((finished_call call).mpr ⟨n,by omega,known⟩)
  cases inside : (cfg r).inside with
  | false =>
      simp only [begun,inside,Bool.toNat_false]
      exact behind
  | true =>
      simp only [begun,inside,Bool.toNat_true]
      apply Classical.byContradiction
      intro late
      obtain ⟨a,k,current,entered⟩ := ordered.valid r inside
      have standing := current_call current entered
      rw [show sys.left cfg r = n by omega,known] at standing
      cases standing
      exact outside ⟨inside,current⟩

theorem current_remains (known : (sys.trace r)[n]? = some d) (low : sys.left cfg r ≤ n) : ∃ e, sys.current cfg r = some e := by
  apply Option.isSome_iff_exists.mp
  rw [current,isSome_getElem?]
  apply Classical.byContradiction
  intro beyond
  have all : sys.left cfg r = (sys.trace r).length := by
    rw [left,finished,List.take_of_length_le (Nat.le_of_not_lt beyond),← calls_length]
    rfl
  have more := (List.getElem?_eq_some_iff.mp known).1
  rw [all] at low
  exact Nat.lt_irrefl _ (Nat.lt_of_lt_of_le more low)

-- A rank that has entered a call it has not left stands at that call.
theorem standing_call (ordered : Ordered sys cfg) (here : sys.current cfg r = some e) (entered : sys.left cfg r < sys.begun cfg r) :
    (sys.kind e).isSome := by
  have inside : (cfg r).inside = true := by
    cases inside : (cfg r).inside with
    | true => rfl
    | false =>
        simp only [begun,inside,Bool.toNat_false] at entered
        omega
  obtain ⟨a,k,current,call⟩ := ordered.valid r inside
  rw [here] at current
  cases current
  rw [call]
  rfl

-- The root does not pass a Gather that another rank has not entered.
theorem gather_held (ordered : Ordered sys cfg) (same : (sys.schedule r).take n = (sys.schedule sys.root).take n)
    (own : (sys.schedule r)[n]? = some .gather) (roots : (sys.schedule sys.root)[n]? = some .gather)
    (before : sys.begun cfg r ≤ n) : sys.left cfg sys.root ≤ n := by
  apply Classical.byContradiction
  intro beyond
  have one_more : (sys.schedule sys.root).take (n+1) = (sys.schedule r).take (n+1) := by
    rw [List.take_add_one,List.take_add_one (i := n),same,own,roots]
  have entered := gather_lag ordered one_more roots (by omega)
  omega

-- While a rank is between the return of an opening Bcast and its entry into the closing
-- Gather, the root stands at a call.
theorem window_guarded (ordered : Ordered sys cfg) (apart : r ≠ sys.root) (agrees : sys.Agrees cfg r)
    (own : Paired sys.kind closing (sys.acts r)) (roots : Paired sys.kind closing (sys.acts sys.root))
    (unbroken : Unbroken sys.kind closing (sys.acts sys.root)) (opens : closing c = some d)
    (bcast : sys.kind c = some .bcast) (gather : sys.kind d = some .gather) (opened : c ∈ sys.finished cfg r)
    (pending : d ∉ sys.finished cfg r) (outside : ¬ ((cfg r).inside = true ∧ sys.current cfg r = some d)) :
    ∃ e k, sys.current cfg sys.root = some e ∧ sys.kind e = some k := by
  obtain ⟨s,passed,known⟩ := (finished_call bcast).mp opened
  have next := own s c d known opens
  have shared := agrees_call agrees passed known
  have shared_next := roots s c d shared opens
  have before : sys.begun cfg r ≤ s+1 := pending_begun ordered next gather pending outside
  have reached : s < sys.begun cfg sys.root :=
    bcast_lag ordered apart (agrees_schedule agrees passed) (by rw [schedule,call_kind known,bcast]) passed
  have held : sys.left cfg sys.root ≤ s+1 :=
    gather_held ordered (agrees_schedule agrees passed) (by rw [schedule,call_kind next,gather])
      (by rw [schedule,call_kind shared_next,gather]) before
  obtain ⟨e,here⟩ := current_remains shared_next held
  suffices stands : (sys.kind e).isSome by
    obtain ⟨k,call⟩ := Option.isSome_iff_exists.mp stands
    exact ⟨e,k,here,call⟩
  -- The root is either past the opening call, where nothing local may follow, or still in it.
  by_cases last : sys.left cfg sys.root = s+1
  · rw [Option.isSome_iff_ne_none]
    intro quiet
    have located := current_located here
    rw [last] at located
    exact unbroken s c d e shared opens quiet located
  · exact standing_call ordered here (by omega)

-- A rank acts on a Bcast only when what prepares that Bcast on the root is done.
theorem read_prepared (ordered : Ordered sys cfg) (apart : r ≠ sys.root) (agrees : sys.Agrees cfg r)
    (announced : Announced sys.kind reads announces (sys.acts r))
    (prepared : Prepared sys.kind needs prepares (sys.acts sys.root))
    (bcast : ∀ c e, announces c e → sys.kind c = some .bcast ∧ needs c)
    (quiet : ∀ e c, prepares e c → sys.kind e = none) (here : sys.current cfg r = some a) (read : reads a) :
    ∃ c e, announces c a ∧ prepares e c ∧ e ∈ sys.finished cfg sys.root := by
  obtain ⟨s,c,place,known,announce⟩ := announced a _ (current_located here) read
  obtain ⟨call,need⟩ := bcast c a announce
  have passed : s < sys.left cfg r := by omega
  have sent := bcast_lag ordered apart (agrees_schedule agrees passed) (by rw [schedule,call_kind known,call]) passed
  obtain ⟨e,t,located,early,ready⟩ := prepared s c (agrees_call agrees passed known) need
  exact ⟨c,e,announce,ready,begun_finished ordered (quiet e c ready) located (by omega)⟩

-- A return of one kind of call needs the other rank to have entered more of that kind.
def Waits (sys : System ρ α) (p : ρ) (k : Kind) (q : ρ) : Prop :=
  ∀ cfg, sys.MayReturn cfg p k → sys.returned cfg p k < sys.entered cfg q k

theorem barrier_waits (sys : System ρ α) (p q : ρ) : sys.Waits p .barrier q := fun _ allowed => allowed q

theorem bcast_waits (apart : p ≠ sys.root) : sys.Waits p .bcast sys.root := by
  intro cfg allowed
  rcases allowed with root | room
  · exact absurd root apart
  · exact room

theorem gather_waits (sys : System ρ α) (q : ρ) : sys.Waits sys.root .gather q := by
  intro cfg allowed
  rcases allowed with other | room
  · exact absurd rfl other
  · exact room q

variable [DecidableEq ρ] {next : Config ρ}

theorem left_put (cfg : Config ρ) (r : ρ) (done : Nat) (inside : Bool) :
    sys.left (put cfg r done inside) r = (kinds sys.kind ((sys.acts r).take done)).length := by
  simp only [left,finished,put_same]

theorem left_other (apart : q ≠ r) (done : Nat) (inside : Bool) : sys.left (put cfg r done inside) q = sys.left cfg q := by
  simp only [left,finished,put_other apart]

-- A step passes at most one call, and that only if it may return.
theorem left_step (step : sys.Step cfg next) (r : ρ) : sys.left next r = sys.left cfg r ∨
    ∃ k, (sys.schedule r)[sys.left cfg r]? = some k ∧ sys.MayReturn cfg r k ∧ sys.left next r = sys.left cfg r + 1 := by
  cases step with
  | @act mover a known quiet outside =>
      by_cases same : r = mover
      · subst same
        rw [left_put,kinds_take_local known quiet]
        exact .inl rfl
      · exact .inl (left_other same _ _)
  | @enter mover a k known call outside =>
      by_cases same : r = mover
      · subst same
        rw [left_put]
        exact .inl rfl
      · exact .inl (left_other same _ _)
  | @leave mover a k known call inside allowed =>
      by_cases same : r = mover
      · subst same
        refine .inr ⟨k,?_,allowed,?_⟩
        · rw [schedule,call_kind (current_call known call),call]
        · rw [left_put,kinds_take_succ known call,List.length_append]
          rfl
      · exact .inl (left_other same _ _)

-- A rank held at its call `m` by another one that is not past its call `n`.
theorem held_back (ordered : Ordered sys cfg) (step : sys.Step cfg next) (here : (sys.schedule p)[m]? = some k)
    (waits : sys.Waits p k q) (few : ((sys.schedule q).take (n+1)).count k ≤ ((sys.schedule p).take m).count k)
    (low : sys.left cfg p ≤ m) (other : sys.left cfg q ≤ n) : sys.left next p ≤ m := by
  rcases left_step step p with same | ⟨j,standing,allowed,moved⟩
  · rw [same]; exact low
  · by_cases below : sys.left cfg p < m
    · omega
    · obtain rfl : sys.left cfg p = m := by omega
      rw [here] at standing
      cases standing
      have more := waits cfg allowed
      rw [returned_take,entered_take ordered] at more
      have begun_low : sys.begun cfg q ≤ n + 1 := by
        have flag := Bool.toNat_le (cfg q).inside
        simp only [begun]
        omega
      have bound : ((sys.schedule q).take (sys.begun cfg q)).count k ≤ ((sys.schedule q).take (n+1)).count k :=
        List.Sublist.count_le k (List.take_sublist_take_left begun_low)
      omega

-- Two ranks whose calls need each other are never past them.
theorem mutual_wait (reach : Reached sys cfg) (first : (sys.schedule p)[m]? = some k) (second : (sys.schedule q)[n]? = some l)
    (firstWaits : sys.Waits p k q) (secondWaits : sys.Waits q l p)
    (fewer : ((sys.schedule q).take (n+1)).count k ≤ ((sys.schedule p).take m).count k)
    (others : ((sys.schedule p).take (m+1)).count l ≤ ((sys.schedule q).take n).count l) :
    sys.left cfg p ≤ m ∧ sys.left cfg q ≤ n := by
  induction reach with
  | start => simp [left,finished,kinds]
  | step prior step ih =>
      have ordered := reached_ordered prior
      exact ⟨held_back ordered step first firstWaits fewer ih.1 ih.2,held_back ordered step second secondWaits others ih.2 ih.1⟩

end System

-- Where the calls of a rank and of the root part: one of them is at a Barrier and the
-- other at a Bcast, which on the root is followed by another Bcast and a Gather.
inductive Parts (kind : α → Option Kind) : List α → List α → Prop where
  | barrier : kinds kind ours = .bcast :: rest → kinds kind roots = .barrier :: more → Parts kind ours roots
  | bcast : kinds kind ours = .barrier :: rest → kinds kind roots = .bcast :: .bcast :: .gather :: more → Parts kind ours roots

inductive Follows (kind : α → Option Kind) : List α → List α → Prop where
  | same : Follows kind ours ours
  | parts : Parts kind ours roots → Follows kind (front ++ ours) (front ++ roots)

theorem follows_append (front : List α) (follows : Follows kind ours roots) : Follows kind (front ++ ours) (front ++ roots) := by
  cases follows with
  | same => exact .same
  | parts apart =>
      rw [← List.append_assoc,← List.append_assoc]
      exact .parts apart

-- Pieces of two lists of calls: the same, or they part whatever comes behind them.
def Alike (kind : α → Option Kind) (ours roots : List α) : Prop :=
  ours = roots ∨ ∀ rest more, Follows kind (ours ++ rest) (roots ++ more)

theorem alike_append (left : Alike kind ours roots) (right : Alike kind rest more) : Alike kind (ours ++ rest) (roots ++ more) := by
  rcases left with rfl | apart
  · rcases right with rfl | apart
    · exact .inl rfl
    · apply Or.inr
      intro tail others
      rw [List.append_assoc,List.append_assoc]
      exact follows_append ours (apart tail others)
  · apply Or.inr
    intro tail others
    rw [List.append_assoc,List.append_assoc]
    exact apart (rest ++ tail) (more ++ others)

theorem alike_flatMap {list : List β} {first second : β → List α} (each : ∀ b ∈ list, Alike kind (first b) (second b)) :
    Alike kind (list.flatMap first) (list.flatMap second) := by
  induction list with
  | nil => exact .inl rfl
  | cons b rest ih =>
      rw [List.flatMap_cons,List.flatMap_cons]
      exact alike_append (each b (by simp)) (ih fun other member => each other (List.mem_cons_of_mem _ member))

theorem alike_follows (alike : Alike kind ours roots) : Follows kind ours roots := by
  rcases alike with rfl | apart
  · exact .same
  · simpa using apart [] []

namespace System
variable {sys : System ρ α} {cfg : Config ρ} {r : ρ} [DecidableEq ρ]

theorem parts_held (reach : Reached sys cfg) (apart : r ≠ sys.root) (own : sys.trace r = front ++ ours)
    (root : sys.trace sys.root = front ++ roots) (parts : Parts sys.kind ours roots) : sys.left cfg r ≤ front.length := by
  have all : ∀ a ∈ front, (sys.kind a).isSome := by
    intro a member
    have call : a ∈ calls sys.kind (sys.acts r) := by
      change a ∈ sys.trace r
      rw [own]
      exact List.mem_append_left _ member
    exact (List.mem_filter.mp call).2
  have count : (kinds sys.kind front).length = front.length := by
    rw [← calls_length,calls,List.filter_eq_self.mpr all]
  have mine : sys.schedule r = kinds sys.kind front ++ kinds sys.kind ours := by rw [schedule_trace,own,kinds_append]
  have others : sys.schedule sys.root = kinds sys.kind front ++ kinds sys.kind roots := by rw [schedule_trace,root,kinds_append]
  generalize kinds sys.kind front = shared at mine others count
  rw [← count]
  cases parts with
  | barrier first second =>
      rw [first] at mine
      rw [second] at others
      refine (mutual_wait reach (n := shared.length) (k := .bcast) (l := .barrier) ?_ ?_ (bcast_waits apart) (barrier_waits sys _ _) ?_ ?_).1
      · rw [mine]; simp
      · rw [others]; simp
      · rw [mine,others,List.take_left,List.take_length_add_append]; simp
      · rw [mine,others,List.take_left,List.take_length_add_append]; simp
  | bcast first second =>
      rw [first] at mine
      rw [second] at others
      refine (mutual_wait reach (n := shared.length + 2) (k := .barrier) (l := .gather) ?_ ?_ (barrier_waits sys _ _)
        (gather_waits sys _) ?_ ?_).1
      · rw [mine]; simp
      · rw [others]; simp
      · rw [mine,others,List.take_left,Nat.add_assoc,List.take_length_add_append]; simp
      · rw [mine,others,List.take_length_add_append,List.take_length_add_append]; simp

theorem follows_agrees (reach : Reached sys cfg) (apart : r ≠ sys.root)
    (follows : Follows sys.kind (sys.trace r) (sys.trace sys.root)) : sys.Agrees cfg r := by
  generalize own : sys.trace r = ours at follows
  generalize root : sys.trace sys.root = roots at follows
  rw [Agrees,own,root]
  cases follows with
  | same => rfl
  | parts parts =>
      have held := parts_held reach apart own root parts
      rw [List.take_append_of_le_length held,List.take_append_of_le_length held]

end System
end Collective
