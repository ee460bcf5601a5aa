import MpidtBench.Library.Session

namespace Session

-- How a party goes through its actions: which of them are for the other party, what a send takes from
-- the party's state, what a receive makes of that, and what the other actions do.
structure Conduct (α μ π σ : Type) where
  comm : α → Option (Comm μ)
  load : α → σ → π
  store : α → π → σ → σ
  effect : α → σ → σ

structure Party (α σ : Type) where
  past : List α
  rest : List α
  state : σ

-- Both parties, and what is under way between them with what it carries.
structure Scene (α μ π σ : Type) where
  left : Party α σ
  right : Party α σ
  toRight : List (μ × π)
  toLeft : List (μ × π)

def Scene.swap (scene : Scene α μ π σ) : Scene α μ π σ := ⟨scene.right,scene.left,scene.toLeft,scene.toRight⟩

def Party.next (party : Party α σ) (a : α) (rest : List α) (state : σ) : Party α σ := ⟨party.past ++ [a],rest,state⟩

-- As `Step`, with the states of the parties and what they do on their own.
inductive Trade (first second : Conduct α μ π σ) : Scene α μ π σ → Scene α μ π σ → Prop where
  | actLeft : scene.left.rest = a :: rest → first.comm a = none →
      Trade first second scene {scene with left := scene.left.next a rest (first.effect a scene.left.state)}
  | actRight : scene.right.rest = a :: rest → second.comm a = none →
      Trade first second scene {scene with right := scene.right.next a rest (second.effect a scene.right.state)}
  | sendLeft : scene.left.rest = a :: rest → first.comm a = some (.send message) →
      Trade first second scene {scene with
        left := scene.left.next a rest scene.left.state
        toRight := scene.toRight ++ [(message,first.load a scene.left.state)]}
  | sendRight : scene.right.rest = a :: rest → second.comm a = some (.send message) →
      Trade first second scene {scene with
        right := scene.right.next a rest scene.right.state
        toLeft := scene.toLeft ++ [(message,second.load a scene.right.state)]}
  | recvLeft : scene.left.rest = a :: rest → first.comm a = some (.recv expected) → scene.toLeft = (message,payload) :: more →
      Trade first second scene {scene with left := scene.left.next a rest (first.store a payload scene.left.state),toLeft := more}
  | recvRight : scene.right.rest = a :: rest → second.comm a = some (.recv expected) → scene.toRight = (message,payload) :: more →
      Trade first second scene {scene with right := scene.right.next a rest (second.store a payload scene.right.state),toRight := more}
  | meet : scene.left.rest = a :: rest → first.comm a = some .meet → scene.right.rest = b :: behind → second.comm b = some .meet →
      Trade first second scene {scene with
        left := scene.left.next a rest scene.left.state
        right := scene.right.next b behind scene.right.state}

inductive Traded (first second : Conduct α μ π σ) (start : Scene α μ π σ) : Scene α μ π σ → Prop where
  | start : Traded first second start start
  | step : Traded first second start scene → Trade first second scene next → Traded first second start next

def Scene.opening (left right : List α) (s t : σ) : Scene α μ π σ := ⟨⟨[],left,s⟩,⟨[],right,t⟩,[],[]⟩

def Scene.config (first second : Conduct α μ π σ) (scene : Scene α μ π σ) : Config μ :=
  ⟨scene.left.rest.filterMap first.comm,scene.right.rest.filterMap second.comm,scene.toRight.map Prod.fst,scene.toLeft.map Prod.fst⟩

-- A party whose actions keep an assertion about what it has done, if every message carries what it should,
-- and whose own messages do.
structure Honest (conduct : Conduct α μ π σ) (carries : μ → π → Prop) (holds : List α → σ → Prop) (acts : List α) : Prop where
  act : ∀ past a rest s, acts = past ++ a :: rest → conduct.comm a = none → holds past s → holds (past ++ [a]) (conduct.effect a s)
  send : ∀ past a rest s message, acts = past ++ a :: rest → conduct.comm a = some (.send message) → holds past s →
    carries message (conduct.load a s) ∧ holds (past ++ [a]) s
  recv : ∀ past a rest s message payload, acts = past ++ a :: rest → conduct.comm a = some (.recv message) → carries message payload →
    holds past s → holds (past ++ [a]) (conduct.store a payload s)
  meet : ∀ past a rest s, acts = past ++ a :: rest → conduct.comm a = some .meet → holds past s → holds (past ++ [a]) s

-- What a party's own actions make of its state, if every message it receives carries what is expected of it.
def Conduct.perform (conduct : Conduct α μ π σ) (expected : μ → π) (s : σ) (a : α) : σ :=
  match conduct.comm a with
  | none => conduct.effect a s
  | some (.recv message) => conduct.store a (expected message) s
  | some _ => s

def Conduct.replay (conduct : Conduct α μ π σ) (expected : μ → π) (acts : List α) (s : σ) : σ := acts.foldl (conduct.perform expected) s

-- Where the parties stand in their lists, and what holds of their states and of what is under way.
structure Kept (carries : μ → π → Prop) (holds others : List α → σ → Prop) (left right : List α) (scene : Scene α μ π σ) : Prop where
  ours : left = scene.left.past ++ scene.left.rest
  theirs : right = scene.right.past ++ scene.right.rest
  holds : holds scene.left.past scene.left.state
  others : others scene.right.past scene.right.state
  toRight : ∀ sent ∈ scene.toRight, carries sent.1 sent.2
  toLeft : ∀ sent ∈ scene.toLeft, carries sent.1 sent.2

section
variable {first second : Conduct α μ π σ} {scene next start : Scene α μ π σ} {carries : μ → π → Prop} {holds others : List α → σ → Prop}
  {left right : List α}

theorem Trade.swap (trade : Trade first second scene next) : Trade second first scene.swap next.swap := by
  cases trade with
  | actLeft known quiet => exact .actRight known quiet
  | actRight known quiet => exact .actLeft known quiet
  | sendLeft known sends => exact .sendRight known sends
  | sendRight known sends => exact .sendLeft known sends
  | recvLeft known asks there => exact .recvRight known asks there
  | recvRight known asks there => exact .recvLeft known asks there
  | meet known here there met => exact .meet there met known here

-- A move of a party on its own is none of the session.
theorem config_trade (trade : Trade first second scene next) :
    next.config first second = scene.config first second ∨ Step (scene.config first second) (next.config first second) := by
  obtain ⟨⟨past,rest,s⟩,⟨before,behind,t⟩,toRight,toLeft⟩ := scene
  cases trade with
  | actLeft known quiet =>
      dsimp only at known
      subst known
      exact .inl (by simp only [Scene.config,Party.next,List.filterMap_cons,quiet])
  | actRight known quiet =>
      dsimp only at known
      subst known
      exact .inl (by simp only [Scene.config,Party.next,List.filterMap_cons,quiet])
  | sendLeft known sends =>
      dsimp only at known
      subst known
      simp only [Scene.config,Party.next,List.filterMap_cons,sends,List.map_append]
      exact .inr .sendLeft
  | sendRight known sends =>
      dsimp only at known
      subst known
      simp only [Scene.config,Party.next,List.filterMap_cons,sends,List.map_append]
      exact .inr .sendRight
  | recvLeft known asks there =>
      dsimp only at known there
      subst known there
      simp only [Scene.config,Party.next,List.filterMap_cons,asks,List.map_cons]
      exact .inr .recvLeft
  | recvRight known asks there =>
      dsimp only at known there
      subst known there
      simp only [Scene.config,Party.next,List.filterMap_cons,asks,List.map_cons]
      exact .inr .recvRight
  | meet known here there met =>
      dsimp only at known there
      subst known there
      simp only [Scene.config,Party.next,List.filterMap_cons,here,met]
      exact .inr .meet

theorem traded_reached {s t : σ} (traded : Traded first second (Scene.opening left right s t) scene) :
    ∃ n, Reached (left.filterMap first.comm) (right.filterMap second.comm) n (scene.config first second) := by
  induction traded with
  | start => exact ⟨0,.start⟩
  | step _ trade ih =>
      obtain ⟨n,reach⟩ := ih
      rcases config_trade trade with same | step
      · exact ⟨n,same ▸ reach⟩
      · exact ⟨n+1,.step reach step⟩

theorem Kept.swap (kept : Kept carries holds others left right scene) : Kept carries others holds right left scene.swap :=
  ⟨kept.theirs,kept.ours,kept.others,kept.holds,kept.toLeft,kept.toRight⟩

theorem advance {all past rest more : List α} {a : α} (whole : all = past ++ rest) (known : rest = a :: more) :
    all = past ++ a :: more ∧ all = past ++ [a] ++ more := by
  subst known
  exact ⟨whole,by rw [whole,List.append_assoc]; rfl⟩

theorem kept_act (honest : Honest first carries holds left) (kept : Kept carries holds others left right scene) (known : scene.left.rest = a :: rest)
    (quiet : first.comm a = none) :
    Kept carries holds others left right {scene with left := scene.left.next a rest (first.effect a scene.left.state)} := by
  obtain ⟨here,ahead⟩ := advance kept.ours known
  exact {kept with ours := ahead,holds := honest.act _ a rest _ here quiet kept.holds}

theorem kept_send (honest : Honest first carries holds left) (kept : Kept carries holds others left right scene) (known : scene.left.rest = a :: rest)
    (sends : first.comm a = some (.send message)) : Kept carries holds others left right {scene with
      left := scene.left.next a rest scene.left.state
      toRight := scene.toRight ++ [(message,first.load a scene.left.state)]} := by
  obtain ⟨here,ahead⟩ := advance kept.ours known
  obtain ⟨carried,held⟩ := honest.send _ a rest _ _ here sends kept.holds
  refine {kept with ours := ahead,holds := held,toRight := fun sent member => ?_}
  rcases List.mem_append.mp member with earlier | last
  · exact kept.toRight sent earlier
  · rw [List.mem_singleton.mp last]
    exact carried

theorem kept_recv (honest : Honest first carries holds left) (safe : Safe (scene.config first second))
    (kept : Kept carries holds others left right scene) (known : scene.left.rest = a :: rest) (asks : first.comm a = some (.recv expected))
    (there : scene.toLeft = (message,payload) :: more) :
    Kept carries holds others left right {scene with left := scene.left.next a rest (first.store a payload scene.left.state),toLeft := more} := by
  obtain ⟨here,ahead⟩ := advance kept.ours known
  have carried := kept.toLeft (message,payload) (by rw [there]; exact List.mem_cons_self)
  have same : message = expected := by
    refine safe.expectedLeft expected (rest.filterMap first.comm) message (more.map Prod.fst) ?_ ?_
    · simp only [Scene.config,known,List.filterMap_cons,asks]
    · simp only [Scene.config,there,List.map_cons]
  subst same
  exact {kept with
    ours := ahead
    holds := honest.recv _ a rest _ _ payload here asks carried kept.holds
    toLeft := fun sent member => kept.toLeft sent (by rw [there]; exact List.mem_cons_of_mem _ member)}

theorem kept_meet (honest : Honest first carries holds left) (kept : Kept carries holds others left right scene) (known : scene.left.rest = a :: rest)
    (meets : first.comm a = some .meet) : Kept carries holds others left right {scene with left := scene.left.next a rest scene.left.state} := by
  obtain ⟨here,ahead⟩ := advance kept.ours known
  exact {kept with ours := ahead,holds := honest.meet _ a rest _ here meets kept.holds}

theorem kept_trade (honest : Honest first carries holds left) (fair : Honest second carries others right)
    (safe : Safe (scene.config first second)) (kept : Kept carries holds others left right scene) (trade : Trade first second scene next) :
    Kept carries holds others left right next := by
  have turned : Safe (scene.swap.config second first) := Safe.swap safe
  cases trade with
  | actLeft known quiet => exact kept_act honest kept known quiet
  | actRight known quiet => exact (kept_act fair kept.swap known quiet).swap
  | sendLeft known sends => exact kept_send honest kept known sends
  | sendRight known sends => exact (kept_send fair kept.swap known sends).swap
  | recvLeft known asks there => exact kept_recv honest safe kept known asks there
  | recvRight known asks there => exact (kept_recv fair turned kept.swap known asks there).swap
  | meet known here there met => exact (kept_meet fair (kept_meet honest kept known here).swap there met).swap

-- Two honest parties whose actions for one another are dual: in every order of steps what each asserts holds.
theorem traded_kept {s t : σ} (dual : right.filterMap second.comm = (left.filterMap first.comm).map Comm.dual)
    (honest : Honest first carries holds left) (fair : Honest second carries others right) (initial : holds [] s) (ready : others [] t)
    (traded : Traded first second (Scene.opening left right s t) scene) : Kept carries holds others left right scene := by
  induction traded with
  | start => exact ⟨rfl,rfl,initial,ready,fun _ member => absurd member List.not_mem_nil,fun _ member => absurd member List.not_mem_nil⟩
  | step traded trade ih =>
      obtain ⟨n,reach⟩ := traded_reached traded
      rw [dual] at reach
      exact kept_trade honest fair (dual_safe reach) ih trade

theorem replay_append (conduct : Conduct α μ π σ) (expected : μ → π) (acts more : List α) (s : σ) :
    conduct.replay expected (acts ++ more) s = conduct.replay expected more (conduct.replay expected acts s) := List.foldl_append

-- A party whose every send carries what is expected of it: only that its state is a replay need be known.
theorem honest_replay {conduct : Conduct α μ π σ} {expected : μ → π} {acts : List α} {s : σ}
    (sends : ∀ past a rest message, acts = past ++ a :: rest → conduct.comm a = some (.send message) →
      conduct.load a (conduct.replay expected past s) = expected message) :
    Honest conduct (fun message payload => payload = expected message) (fun past t => t = conduct.replay expected past s) acts := by
  have last : ∀ past a, conduct.replay expected (past ++ [a]) s = conduct.perform expected (conduct.replay expected past s) a :=
    fun past a => replay_append conduct expected past [a] s
  refine ⟨?_,?_,?_,?_⟩
  · rintro past a rest _ _ quiet rfl
    rw [last,Conduct.perform,quiet]
  · rintro past a rest _ message whole known rfl
    refine ⟨sends past a rest message whole known,?_⟩
    rw [last,Conduct.perform,known]
  · rintro past a rest _ message _ _ known rfl rfl
    rw [last,Conduct.perform,known]
  · rintro past a rest _ _ known rfl
    rw [last,Conduct.perform,known]

theorem traded_replay {expected : μ → π} {s t : σ} (dual : right.filterMap second.comm = (left.filterMap first.comm).map Comm.dual)
    (sends : ∀ past a rest message, left = past ++ a :: rest → first.comm a = some (.send message) →
      first.load a (first.replay expected past s) = expected message)
    (others : ∀ past a rest message, right = past ++ a :: rest → second.comm a = some (.send message) →
      second.load a (second.replay expected past t) = expected message)
    (traded : Traded first second (Scene.opening left right s t) scene) :
    (left = scene.left.past ++ scene.left.rest ∧ scene.left.state = first.replay expected scene.left.past s) ∧
      right = scene.right.past ++ scene.right.rest ∧ scene.right.state = second.replay expected scene.right.past t := by
  have kept := traded_kept dual (honest_replay sends) (honest_replay others) rfl rfl traded
  exact ⟨⟨kept.ours,kept.holds⟩,kept.theirs,kept.others⟩

-- Where a party comes to its next action for the other one, it is at it or at one of its own before.
theorem next_move {comm : α → Option (Comm μ)} {rest : List α} (ahead : rest.filterMap comm = c :: more) :
    (∃ a behind, rest = a :: behind ∧ comm a = none) ∨ ∃ a behind, rest = a :: behind ∧ comm a = some c := by
  obtain ⟨before,a,behind,whole,quiet,known,_⟩ := List.filterMap_eq_cons_iff.mp ahead
  cases before with
  | nil => exact .inr ⟨a,behind,whole,known⟩
  | cons b between => exact .inl ⟨b,_,whole,quiet b List.mem_cons_self⟩

theorem last_move {comm : α → Option (Comm μ)} {rest : List α} (none_left : rest.filterMap comm = []) :
    rest = [] ∨ ∃ a behind, rest = a :: behind ∧ comm a = none := by
  cases rest with
  | nil => exact .inl rfl
  | cons a behind => exact .inr ⟨a,behind,rfl,List.filterMap_eq_nil_iff.mp none_left a List.mem_cons_self⟩

theorem proceeds_trade (proceeds : Proceeds (scene.config first second)) : ∃ next, Trade first second scene next := by
  rcases proceeds with ⟨expected,_,message,_,asks,there⟩ | ⟨message,_,_,_,sends,_⟩
  · rcases next_move asks with ⟨_,_,known,quiet⟩ | ⟨_,_,known,here⟩
    · exact ⟨_,.actLeft known quiet⟩
    · obtain ⟨⟨_,payload⟩,more,same,_⟩ := List.map_eq_cons_iff.mp there
      exact ⟨_,.recvLeft known here same⟩
  · rcases next_move sends with ⟨_,_,known,quiet⟩ | ⟨_,_,known,here⟩
    · exact ⟨_,.actLeft known quiet⟩
    · exact ⟨_,.sendLeft known here⟩

-- Until both are done, one of them can go on.
theorem traded_live {s t : σ} (dual : right.filterMap second.comm = (left.filterMap first.comm).map Comm.dual)
    (traded : Traded first second (Scene.opening left right s t) scene) :
    scene.left.rest = [] ∧ scene.right.rest = [] ∨ ∃ next, Trade first second scene next := by
  obtain ⟨n,reach⟩ := traded_reached traded
  rw [dual] at reach
  rcases (dual_safe reach).live with ⟨left,right⟩ | proceeds | proceeds | ⟨_,_,ours,theirs⟩
  · rcases last_move left with ended | ⟨_,_,known,quiet⟩
    · rcases last_move right with finished | ⟨_,_,known,quiet⟩
      · exact .inl ⟨ended,finished⟩
      · exact .inr ⟨_,.actRight known quiet⟩
    · exact .inr ⟨_,.actLeft known quiet⟩
  · exact .inr (proceeds_trade proceeds)
  · have turned : Proceeds (scene.swap.config second first) := proceeds
    obtain ⟨_,trade⟩ := proceeds_trade turned
    exact .inr ⟨_,trade.swap⟩
  · rcases next_move ours with ⟨_,_,known,quiet⟩ | ⟨_,_,known,here⟩
    · exact .inr ⟨_,.actLeft known quiet⟩
    · rcases next_move theirs with ⟨_,_,behind,quiet⟩ | ⟨_,_,behind,there⟩
      · exact .inr ⟨_,.actRight behind quiet⟩
      · exact .inr ⟨_,.meet known here behind there⟩

theorem trade_shrinks (trade : Trade first second scene next) :
    next.left.rest.length + next.right.rest.length < scene.left.rest.length + scene.right.rest.length := by
  cases trade with
  | actLeft known _ => simp only [Party.next,known,List.length_cons]; omega
  | actRight known _ => simp only [Party.next,known,List.length_cons]; omega
  | sendLeft known _ => simp only [Party.next,known,List.length_cons]; omega
  | sendRight known _ => simp only [Party.next,known,List.length_cons]; omega
  | recvLeft known _ _ => simp only [Party.next,known,List.length_cons]; omega
  | recvRight known _ _ => simp only [Party.next,known,List.length_cons]; omega
  | meet known _ there _ => simp only [Party.next,known,there,List.length_cons]; omega

theorem traded_finishes {s t : σ} (dual : right.filterMap second.comm = (left.filterMap first.comm).map Comm.dual)
    (traded : Traded first second (Scene.opening left right s t) scene) :
    ∃ last, Traded first second (Scene.opening left right s t) last ∧ last.left.rest = [] ∧ last.right.rest = [] := by
  generalize ahead : scene.left.rest.length + scene.right.rest.length = n
  induction n using Nat.strongRecOn generalizing scene with
  | ind n ih =>
      rcases traded_live dual traded with ended | ⟨next,trade⟩
      · exact ⟨scene,traded,ended⟩
      · exact ih _ (ahead ▸ trade_shrinks trade) (.step traded trade) rfl

end
end Session
