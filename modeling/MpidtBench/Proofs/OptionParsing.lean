import MpidtBench.Model.Options

namespace MpidtBench.OptionParsing
open CInteger MpidtBench

-- What the setters have checked of the members the latency test reads.
structure Settings (options : Options) : Prop where
  minMessageSize : options.minMessageSize ≤ 9223372036854775807
  iterations : 1 ≤ options.iterations ∧ options.iterations ≤ intMax
  iterationsLarge : 1 ≤ options.iterationsLarge ∧ options.iterationsLarge ≤ intMax
  skip : options.skip ≤ intMax
  skipLarge : options.skipLarge ≤ intMax

theorem default_settings : Settings defaultOptions := by constructor <;> decide

theorem atoll_range (s : List Char) : -9223372036854775808 ≤ atoll s ∧ atoll s ≤ 9223372036854775807 := by
  unfold atoll strtoll
  dsimp only
  omega

theorem atoi_isInt (s : List Char) : IsInt (atoi s) := by
  unfold IsInt atoi intMax
  rw [Int.bmod_def]
  omega

theorem toSize_value {value : Int} (low : 0 ≤ value) (high : value ≤ 9223372036854775807) : (toSize value : Int) = value := by
  simp only [toSize,sizeMod]
  omega

theorem setMin_settings (valid : Settings options) (s : List Char) : Settings (setMinMessageSize (atoll s) options).1 := by
  obtain ⟨_,high⟩ := atoll_range s
  unfold setMinMessageSize
  split
  · exact valid
  · rename_i positive
    have exactly := toSize_value (by omega) high
    exact {valid with minMessageSize := by change toSize (atoll s) ≤ _; omega}

theorem setMax_settings (valid : Settings options) (value : Int) : Settings (setMaxMessageSize value options).1 := by
  unfold setMaxMessageSize
  split
  · exact valid
  · exact {valid with}

theorem setMessageSize_settings (valid : Settings options) (valStr : List Char) : Settings (setMessageSize valStr options).1 := by
  unfold setMessageSize
  dsimp only
  split
  · exact setMax_settings valid _
  split
  · split
    · exact valid
    · split
      · exact setMax_settings (setMin_settings valid _) _
      · split
        · exact setMax_settings valid _
        · exact setMin_settings valid _
  · exact valid

theorem atoi_value (low : 0 ≤ atoi s) : (toSize (atoi s) : Int) = atoi s ∧ atoi s ≤ intMax := by
  obtain ⟨_,high⟩ := atoi_isInt s
  exact ⟨toSize_value low (by unfold intMax at high; omega),high⟩

theorem setNumWarmup_settings (valid : Settings options) (s : List Char) : Settings (setNumWarmup (atoi s) options).1 := by
  unfold setNumWarmup
  split
  · exact valid
  · rename_i positive
    have value := atoi_value (s := s) (by omega)
    have small : toSize (atoi s) ≤ intMax := by omega
    exact {valid with skip := small,skipLarge := small}

theorem setNumIterations_settings (valid : Settings options) (s : List Char) : Settings (setNumIterations (atoi s) options).1 := by
  unfold setNumIterations
  split
  · exact valid
  · rename_i positive
    have value := atoi_value (s := s) (by omega)
    have range : 1 ≤ toSize (atoi s) ∧ toSize (atoi s) ≤ intMax := by omega
    exact {valid with iterations := range,iterationsLarge := range}

theorem accept_ok {made : Options × Int} (accepted : accept message opt made = .ok next) : next = made.1 := by
  unfold accept at accepted
  split at accepted
  · cases accepted
  · exact (Except.ok.inj accepted).symm

-- All that an accepted option can do.
theorem processOption_cases (accepted : processOption options opt = .ok next) :
    next = options ∨ next = (setMessageSize opt.optarg options).1 ∨ next = (setNumIterations (atoi opt.optarg) options).1 ∨
      next = (setNumWarmup (atoi opt.optarg) options).1 := by
  unfold processOption at accepted
  split at accepted
  case h_3 => exact .inr (.inl (accept_ok accepted))
  case h_5 => exact .inr (.inr (.inl (accept_ok accepted)))
  case h_6 => exact .inr (.inr (.inr (accept_ok accepted)))
  case h_4 | h_8 | h_11 => exact .inl (accept_ok accepted)
  case h_7 =>
      split at accepted
      · cases accepted
      · exact .inl (Except.ok.inj accepted).symm
  case h_16 | h_17 =>
      split at accepted
      · exact .inl (Except.ok.inj accepted).symm
      · cases accepted
  all_goals first
    | exact .inl (Except.ok.inj accepted).symm
    | cases accepted

theorem processOption_settings (valid : Settings options) (accepted : processOption options opt = .ok next) : Settings next := by
  rcases processOption_cases accepted with rfl | rfl | rfl | rfl
  · exact valid
  · exact setMessageSize_settings valid _
  · exact setNumIterations_settings valid _
  · exact setNumWarmup_settings valid _

theorem foldlM_settings {opts : List Opt} (valid : Settings options) (parsed : opts.foldlM processOption options = .ok last) :
    Settings last := by
  induction opts generalizing options with
  | nil => cases parsed; exact valid
  | cons opt rest ih =>
      rw [List.foldlM_cons] at parsed
      cases accepted : processOption options opt with
      | error refused => rw [accepted] at parsed; cases parsed
      | ok next =>
          rw [accepted] at parsed
          exact ih (processOption_settings valid accepted) parsed

theorem parsed_settings (parsed : processOptions opts = .ok options) : Settings options := foldlM_settings default_settings parsed

theorem digit_plain (digit : c.isDigit) : isspace c = false ∧ c ≠ '-' ∧ c ≠ '+' ∧ c ≠ ':' := by
  obtain ⟨low,high⟩ := Char.isDigit_iff_toNat.mp digit
  change 48 ≤ c.toNat at low
  change c.toNat ≤ 57 at high
  refine ⟨?_,?_,?_,?_⟩
  · have other : c ≠ ' ' := by rintro rfl; exact absurd low (by decide)
    simp [isspace,other]
    omega
  all_goals
    rintro rfl
    revert low high
    decide

theorem atoll_digits (small : value ≤ 9223372036854775807) : atoll (Nat.toDigits 10 value) = value := by
  have digits : ∀ c ∈ Nat.toDigits 10 value, c.isDigit := fun c member => Nat.isDigit_of_mem_toDigits (by decide) (by decide) member
  have read : Nat.ofDigitChars 10 ((Nat.toDigits 10 value).takeWhile Char.isDigit) 0 = value := by
    rw [List.takeWhile_eq_self_iff.mpr digits]
    exact Nat.ofDigitChars_ten_toDigits
  obtain ⟨c,rest,shape⟩ := List.exists_cons_of_ne_nil (Nat.toDigits_ne_nil (b := 10) (n := value))
  rw [shape] at digits read ⊢
  obtain ⟨blank,minus,plus,_⟩ := digit_plain (digits c List.mem_cons_self)
  have unsigned : signed (c :: rest) = (false,c :: rest) := by
    unfold signed
    split
    · rename_i same; exact absurd (List.cons.inj same).1 minus
    · rename_i same; exact absurd (List.cons.inj same).1 plus
    · rfl
  unfold atoll strtoll
  rw [List.dropWhile_cons_of_neg (by simp [blank]),unsigned]
  simp only [read,Bool.false_eq_true,if_false]
  omega

theorem strtok_last {c : Char} (plain : ∀ d ∈ c :: rest, d ≠ delim) :
    strtok delim (c :: (rest ++ [delim])) = some (c :: rest,[],c :: rest) := by
  have apart : (c == delim) = false := beq_eq_false_iff_ne.mpr (plain c List.mem_cons_self)
  have front : ∀ d ∈ c :: rest, (d != delim) = true := fun d member => bne_iff_ne.mpr (plain d member)
  have before : (c :: (rest ++ [delim])).takeWhile (· != delim) = c :: rest := by
    rw [← List.cons_append,List.takeWhile_append_of_pos front]
    simp
  have behind : (c :: (rest ++ [delim])).dropWhile (· != delim) = [delim] := by
    rw [← List.cons_append,List.dropWhile_append_of_pos front]
    simp
  rw [strtok,List.dropWhile_cons,List.takeWhile_cons,apart]
  simp only [Bool.false_eq_true,if_false,before,behind,List.tail_cons,List.nil_append]

-- `MIN:` sets the one member.
theorem min_parsed (positive : 0 < value) (small : value ≤ 9223372036854775807) (optopt : Char) :
    processOptions [⟨'m',Nat.toDigits 10 value ++ [':'],optopt⟩] = .ok {defaultOptions with minMessageSize := value} := by
  have plain : ∀ c ∈ Nat.toDigits 10 value, c ≠ ':' := fun c member =>
    (digit_plain (Nat.isDigit_of_mem_toDigits (by decide) (by decide) member)).2.2.2
  have converted := atoll_digits small
  obtain ⟨c,rest,shape⟩ := List.exists_cons_of_ne_nil (Nat.toDigits_ne_nil (b := 10) (n := value))
  rw [shape] at plain converted ⊢
  rw [List.cons_append]
  have counted : (c :: (rest ++ [':'])).count ':' = 1 := by
    rw [← List.cons_append,List.count_append,List.count_eq_zero.mpr fun member => plain ':' member rfl]
    rfl
  have stored : setMinMessageSize value defaultOptions = ({defaultOptions with minMessageSize := value},0) := by
    rw [setMinMessageSize,if_neg (by omega),toSize_exact (by unfold sizeMod; omega)]
  have sized : setMessageSize (c :: (rest ++ [':'])) defaultOptions = ({defaultOptions with minMessageSize := value},0,c :: rest) := by
    have other : (c :: (rest ++ [':'])).head? ≠ some ':' := fun same => plain c List.mem_cons_self (Option.some.inj same)
    unfold setMessageSize
    simp only [counted,strtok_last plain,if_neg other,converted,stored]
    rfl
  have step : processOption defaultOptions ⟨'m',c :: (rest ++ [':']),optopt⟩ = .ok {defaultOptions with minMessageSize := value} := by
    unfold processOption
    simp only [sized]
    rfl
  rw [processOptions,List.foldlM_cons,step]
  rfl

-- The values that some command line leaves in options.min_message_size.
theorem accepted_min (value : Nat) :
    (∃ opts options, processOptions opts = .ok options ∧ options.minMessageSize = value) ↔ value ≤ 9223372036854775807 := by
  constructor
  · rintro ⟨opts,options,parsed,rfl⟩
    exact (parsed_settings parsed).minMessageSize
  · intro small
    rcases Nat.eq_zero_or_pos value with rfl | positive
    · exact ⟨[],defaultOptions,rfl,rfl⟩
    · exact ⟨_,_,min_parsed positive small ' ',rfl⟩

end MpidtBench.OptionParsing
