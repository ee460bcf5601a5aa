import MpidtBench.Library.Traced

namespace Traced

-- Two runs that issue the same actions and end alike, in values that stand in a relation.
inductive Related (R : σ → τ → Prop) : Run ε α σ → Run ε α τ → Prop where
  | ok (acts : List α) (held : R s t) : Related R ⟨acts,.ok s⟩ ⟨acts,.ok t⟩
  | error (acts : List α) (error : ε) : Related R ⟨acts,.error error⟩ ⟨acts,.error error⟩

section
variable {R : σ → τ → Prop} {Q : β → γ → Prop} {first : Run ε α σ} {second : Run ε α τ}

theorem related_refl (run : Run ε α σ) : Related Eq run run := by
  obtain ⟨acts,out⟩ := run
  cases out with
  | error error => exact .error acts error
  | ok value => exact .ok acts rfl

theorem related_mono {S : σ → τ → Prop} (weaker : ∀ s t, R s t → S s t) (related : Related R first second) : Related S first second := by
  cases related with
  | ok acts held => exact .ok acts (weaker _ _ held)
  | error acts error => exact .error acts error

theorem related_chain {next : σ → Run ε α β} {more : τ → Run ε α γ} (here : Related R first second)
    (later : ∀ s t, R s t → Related Q (next s) (more t)) : Related Q (first >>= next) (second >>= more) := by
  cases here with
  | error acts error => exact .error acts error
  | ok acts held =>
      have rest := later _ _ held
      rw [Run.ok_chain,Run.ok_chain]
      generalize next _ = left at rest
      generalize more _ = right at rest
      cases rest with
      | ok others last => exact .ok (acts ++ others) last
      | error others error => exact .error (acts ++ others) error

theorem related_label {δ : Type} (f : α → δ) (related : Related R first second) : Related R (first.label f) (second.label f) := by
  cases related with
  | ok acts held => exact .ok (acts.map f) held
  | error acts error => exact .error (acts.map f) error

theorem related_forFrom {R : Nat → σ → τ → Prop} {f : Nat → σ → Run ε α σ} {g : Nat → τ → Run ε α τ}
    (each : ∀ i s t, low ≤ i → i < low + count → R i s t → Related (R (i+1)) (f i s) (g i t)) (start : R low s t) :
    Related (R (low + count)) (forFrom f low count s) (forFrom g low count t) := by
  induction count generalizing low s t with
  | zero => exact .ok [] start
  | succ count ih =>
      have whole : low + (count + 1) = low + 1 + count := by omega
      rw [whole]
      exact related_chain (each low s t (Nat.le_refl _) (by omega) start) fun s t held =>
        ih (fun i s t above below => each i s t (by omega) (by omega)) held

theorem related_forRange {R : Nat → σ → τ → Prop} {f : Nat → σ → Run ε α σ} {g : Nat → τ → Run ε α τ}
    (each : ∀ i s t, i < count → R i s t → Related (R (i+1)) (f i s) (g i t)) (start : R 0 s t) :
    Related (R count) (forRange count f s) (forRange count g t) := by
  have related : Related (R (0 + count)) (forFrom f 0 count s) (forFrom g 0 count t) :=
    related_forFrom (fun i s t _ below => each i s t (by omega)) start
  rwa [Nat.zero_add] at related

end
end Traced
