import ToyIsa.Input.Numbers
import ToyIsa.Toy.CommandLine

/-!
# What the command line says

A setting is written as an argument in more than one way, since `std::stoull` skips white space and
takes a sign. `command_line_exact` says which command lines are accepted, with the last setting of a
kind in force, and for which argument and with which message the others are refused.
-/

namespace ToyIsa.CommandLine

/-! ## Numbers -/

/-- A sign in front of the number `n`, and the value of both in `uint64_t`. -/
inductive Signed (n : Nat) : List Char → Nat → Prop where
  | unsigned : Signed n [] n
  | plus : Signed n ['+'] n
  | minus : Signed n ['-'] (u64 (2 ^ 64 - n))

/-- The text starts, after white space, with the number `n`, and `rest` follows its digits. -/
def Numeral (value : List Char) (n : Nat) (rest : List Char) : Prop :=
  ∃ spaces sign digits, value = spaces ++ (sign ++ (digits ++ rest)) ∧
    (∀ c ∈ spaces, isSpace c = true) ∧ Signed (Nat.ofDigitChars 10 digits 0) sign n ∧
    digits ≠ [] ∧ (∀ c ∈ digits, c.isDigit = true) ∧ (∀ c ∈ rest.head?, c.isDigit = false) ∧
    Nat.ofDigitChars 10 digits 0 < 2 ^ 64

/-- The code of a digit. -/
lemma isDigit_code {c : Char} (h : c.isDigit = true) : 48 ≤ c.toNat ∧ c.toNat ≤ 57 :=
  Char.isDigit_iff_toNat.mp h

/-- The sign that is taken. -/
lemma takeSign_cases (text : List Char) : ∃ sign rest, text = sign ++ rest ∧
    takeSign text = (decide (sign = ['-']), rest) ∧ (sign = [] ∨ sign = ['+'] ∨ sign = ['-']) := by
  cases text with
  | nil => exact ⟨[], [], rfl, rfl, .inl rfl⟩
  | cons c rest =>
    unfold takeSign
    dsimp only
    split
    case isTrue minus =>
      subst minus
      exact ⟨['-'], rest, rfl, rfl, .inr (.inr rfl)⟩
    case isFalse =>
      split
      case isTrue plus =>
        subst plus
        exact ⟨['+'], rest, rfl, rfl, .inr (.inl rfl)⟩
      case isFalse => exact ⟨[], c :: rest, rfl, rfl, .inl rfl⟩

section

variable {n value : Nat} {sign digits : List Char}

/-- The sign in front of digits. -/
lemma takeSign_signed (signed : Signed n sign value) (ne : digits ≠ [])
    (all : ∀ c ∈ digits, c.isDigit = true) (rest) :
    ∃ negative, takeSign (sign ++ (digits ++ rest)) = (negative, digits ++ rest) ∧
      value = if negative then u64 (2 ^ 64 - n) else n := by
  cases signed with
  | plus => exact ⟨false, rfl, rfl⟩
  | minus => exact ⟨true, rfl, rfl⟩
  | unsigned =>
    obtain ⟨c, cs, rfl⟩ := List.exists_cons_of_ne_nil ne
    have digit := all c List.mem_cons_self
    have minus : c ≠ '-' := by
      rintro rfl
      cases digit
    have plus : c ≠ '+' := by
      rintro rfl
      cases digit
    refine ⟨false, ?_, rfl⟩
    show takeSign (c :: (cs ++ rest)) = _
    rw [takeSign, if_neg minus, if_neg plus]
    rfl

/-- A sign or a digit ends the white space. -/
lemma signed_not_space (signed : Signed n sign value) (ne : digits ≠ [])
    (all : ∀ c ∈ digits, c.isDigit = true) (rest : List Char) :
    ∀ c ∈ (sign ++ (digits ++ rest)).head?, isSpace c = false := by
  cases signed with
  | plus => rintro _ ⟨⟩; rfl
  | minus => rintro _ ⟨⟩; rfl
  | unsigned =>
    obtain ⟨c, cs, rfl⟩ := List.exists_cons_of_ne_nil ne
    rintro _ ⟨⟩
    obtain ⟨low, _⟩ := isDigit_code (all c List.mem_cons_self)
    refine Bool.eq_false_iff.mpr fun space => ?_
    simp only [isSpace, Bool.or_eq_true, beq_iff_eq, Bool.and_eq_true, decide_eq_true_eq] at space
    omega

end

/-- What `std::stoull` takes for a number. -/
lemma stoull_ok_iff {value : List Char} {n parsed : Nat} :
    stoull value = .ok (n, parsed) ↔
      ∃ rest, Numeral value n rest ∧ parsed = value.length - rest.length := by
  constructor
  · intro found
    obtain ⟨sign, text, split, e, form⟩ := takeSign_cases (value.dropWhile isSpace)
    unfold stoull at found
    rw [e] at found
    dsimp only at found
    split at found
    case isTrue => cases found
    case isFalse inRange =>
      obtain ⟨ne, small⟩ := not_or.mp inRange
      cases found
      refine ⟨text.dropWhile Char.isDigit, ⟨value.takeWhile isSpace, sign,
        text.takeWhile Char.isDigit, ?_, fun c mem => List.mem_takeWhile_imp mem, ?_, ne,
        fun c mem => List.mem_takeWhile_imp mem, head_dropWhile _ _, Nat.not_le.mp small⟩, rfl⟩
      · rw [List.takeWhile_append_dropWhile, ← split, List.takeWhile_append_dropWhile]
      · rcases form with rfl | rfl | rfl
        · exact .unsigned
        · exact .plus
        · exact .minus
  · rintro ⟨rest, ⟨spaces, sign, digits, rfl, blank, signed, ne, all, ends, small⟩, rfl⟩
    obtain ⟨negative, split, number⟩ := takeSign_signed signed ne all rest
    obtain ⟨run, behind⟩ := takeWhile_run all ends
    unfold stoull
    rw [(takeWhile_run blank (signed_not_space signed ne all rest)).2, split]
    dsimp only
    rw [run, behind, if_neg (not_or.mpr ⟨ne, Nat.not_le.mpr small⟩), number]

/-- `stoull` throws one kind of exception. -/
lemma stoull_error {value : List Char} {e} (h : stoull value = .error e) :
    e = .runtime "stoull" := by
  unfold stoull at h
  dsimp only at h
  split at h
  case isTrue =>
    cases h
    rfl
  case isFalse => cases h

/-- A text is taken for one number at most. -/
lemma Numeral.unique {value : List Char} {n n' : Nat} {rest rest' : List Char}
    (h : Numeral value n rest) (h' : Numeral value n' rest') : n = n' ∧ rest = rest' := by
  have found := stoull_ok_iff.mpr ⟨rest, h, rfl⟩
  rw [stoull_ok_iff.mpr ⟨rest', h', rfl⟩] at found
  have length {n : Nat} {rest : List Char} (h : Numeral value n rest) :
      rest.length ≤ value.length ∧ rest = value.drop (value.length - rest.length) := by
    obtain ⟨spaces, sign, digits, e, _⟩ := h
    have assoc : value = (spaces ++ sign ++ digits) ++ rest := by
      rw [e, List.append_assoc, List.append_assoc]
    constructor
    · rw [assoc, List.length_append]
      omega
    · rw [assoc, List.length_append, Nat.add_sub_cancel, List.drop_left]
  have same : n' = n ∧ value.length - rest'.length = value.length - rest.length := by
    simpa using found
  obtain ⟨rfl, same⟩ := same
  refine ⟨rfl, ?_⟩
  rw [(length h).2, (length h').2, same]

/-- The number is written with nothing behind it. -/
lemma numeral_nil_iff {value : List Char} {n : Nat} {rest : List Char} (h : Numeral value n rest) :
    value.length - rest.length = value.length ↔ rest = [] := by
  obtain ⟨spaces, sign, digits, e, _, _, ne, _⟩ := h
  have positive := List.length_pos_iff.mpr ne
  have length : value.length = spaces.length + (sign.length + (digits.length + rest.length)) := by
    rw [e, List.length_append, List.length_append, List.length_append]
  constructor
  · intro all
    apply List.length_eq_zero_iff.mp
    omega
  · rintro rfl
    rfl

/-- A numeral fits in 64 bits. -/
lemma Numeral.lt {value : List Char} {n : Nat} {rest : List Char} (h : Numeral value n rest) :
    n < 2 ^ 64 := by
  obtain ⟨_, _, _, _, _, signed, _, _, _, small⟩ := h
  cases signed with
  | unsigned => exact small
  | plus => exact small
  | minus => exact Nat.mod_lt _ (Nat.two_pow_pos 64)

/-! ## Settings -/

inductive Setting where
  | engine (mode : TIExecutionMode)
  | jitThreshold (n : Nat)
  | jitOptimizationLevel (level : Nat)

def engineArgument : TIExecutionMode → String
  | .threaded => engineThreaded
  | .switch => engineSwitch
  | .jit => engineJit

/-- The argument is an option and its value. -/
def Gives (option : String) (value : List Char) (argument : String) : Prop :=
  argument.toList = option.toList ++ value

/-- The argument says the setting. -/
inductive Setting.Written : Setting → String → Prop where
  | engine mode : Written (.engine mode) (engineArgument mode)
  | jitThreshold {value argument n} :
    Gives jitThresholdOption value argument →
    Numeral value n [] →
    Written (.jitThreshold n) argument
  | jitOptimizationLevel {value argument level} :
    Gives jitOptLevelOption value argument →
    Numeral value level [] →
    level ≤ 2 →
    Written (.jitOptimizationLevel level) argument

def Setting.apply (options : CommandLineOptions) : Setting → CommandLineOptions
  | .engine mode => { options with mode := mode }
  | .jitThreshold n => { options with jitThreshold := n }
  | .jitOptimizationLevel level => { options with jitOptimizationLevel := BitVec.ofNat 8 level }

/-- The argument is refused. -/
inductive Refused : String → Failure → Prop where
  | unknown {argument} :
    (∀ mode, argument ≠ engineArgument mode) →
    (∀ value, ¬ Gives jitThresholdOption value argument) →
    (∀ value, ¬ Gives jitOptLevelOption value argument) →
    Refused argument (.runtime ("Unknown argument: " ++ argument))
  | number {option value argument} :
    option = jitThresholdOption ∨ option = jitOptLevelOption →
    Gives option value argument →
    (∀ n rest, ¬ Numeral value n rest) →
    Refused argument (.runtime "stoull")
  | jitThreshold {value argument n rest} :
    Gives jitThresholdOption value argument →
    Numeral value n rest →
    rest ≠ [] →
    Refused argument (.runtime ("Invalid JIT threshold: " ++ .ofList value))
  | jitOptimizationLevel {value argument level rest} :
    Gives jitOptLevelOption value argument →
    Numeral value level rest →
    rest ≠ [] ∨ 2 < level →
    Refused argument (.runtime ("Invalid JIT optimization level: " ++ .ofList value))

variable {option : String} {value value' : List Char} {argument : String}

/-- What `valueOf` finds. -/
lemma valueOf_eq_some_iff : valueOf option argument = some value ↔ Gives option value argument := by
  unfold valueOf Gives
  rw [List.dropPrefix?_eq_some_iff]
  constructor
  · rintro ⟨_, e, same⟩
    rw [e, eq_of_beq same]
  · intro e
    exact ⟨_, e, BEq.rfl⟩

/-- An argument without the prefix gives nothing. -/
lemma valueOf_eq_none_iff :
    valueOf option argument = none ↔ ∀ value, ¬ Gives option value argument := by
  rw [Option.eq_none_iff_forall_not_mem]
  exact forall_congr' fun value => not_congr valueOf_eq_some_iff

/-- An argument gives a value in one way. -/
lemma Gives.unique (h : Gives option value argument) (h' : Gives option value' argument) :
    value = value' := List.append_cancel_left (h.symm.trans h')

/-- The two options with values have the same length. -/
lemma Gives.ne (h : Gives jitThresholdOption value argument) :
    ¬ Gives jitOptLevelOption value' argument := fun h' => by
  have length : jitThresholdOption.toList.length = jitOptLevelOption.toList.length := by decide
  obtain ⟨same, _⟩ := List.append_inj (h.symm.trans h') length
  revert same
  decide

/-- No engine is an option with a value. -/
lemma Gives.engine (ne : option = jitThresholdOption ∨ option = jitOptLevelOption)
    (h : Gives option value argument) (mode) : argument ≠ engineArgument mode := by
  rintro rfl
  have first : (engineArgument mode).toList.take 4 = option.toList.take 4 := by
    rw [show (engineArgument mode).toList = option.toList ++ value from h,
      List.take_append_of_le_length]
    rcases ne with rfl | rfl <;> decide
  revert first
  rcases ne with rfl | rfl <;> cases mode <;> decide

variable {options : CommandLineOptions}

/-- An argument that names no engine is an option. -/
lemma parseArgument_of_not_engine (engine : ∀ mode, argument ≠ engineArgument mode) :
    parseArgument options argument = parseOption options argument := by
  have switch : argument ≠ engineSwitch := engine .switch
  have jit : argument ≠ engineJit := engine .jit
  have threaded : argument ≠ engineThreaded := engine .threaded
  unfold parseArgument
  rw [if_neg switch, if_neg jit, if_neg threaded]

/-- An argument that gives a threshold. -/
lemma parseArgument_threshold (gives : Gives jitThresholdOption value argument) :
    parseArgument options argument = parseJitThreshold value options := by
  rw [parseArgument_of_not_engine (gives.engine (.inl rfl)), parseOption,
    valueOf_eq_some_iff.mpr gives]

/-- An argument that gives a level. -/
lemma parseArgument_level (gives : Gives jitOptLevelOption value argument) :
    parseArgument options argument = parseJitOptLevel value options := by
  have other : valueOf jitThresholdOption argument = none :=
    valueOf_eq_none_iff.mpr fun _ gives' => gives'.ne gives
  rw [parseArgument_of_not_engine (gives.engine (.inr rfl)), parseOption,
    valueOf_eq_some_iff.mpr gives, other]

/-- A threshold that starts with a number. -/
lemma parseJitThreshold_of_numeral {n rest} (numeral : Numeral value n rest) :
    parseJitThreshold value options =
      if rest = [] then .ok { options with jitThreshold := n }
      else .error (.runtime ("Invalid JIT threshold: " ++ .ofList value)) := by
  unfold parseJitThreshold
  rw [stoull_ok_iff.mpr ⟨rest, numeral, rfl⟩]
  simp only [bind, Except.bind, ne_eq, numeral_nil_iff numeral]
  by_cases none : rest = []
  case pos =>
    rw [if_pos none, if_neg (not_not.mpr none)]
    rfl
  case neg =>
    rw [if_neg none, if_pos none]
    rfl

/-- A level that starts with a number. -/
lemma parseJitOptLevel_of_numeral {n rest} (numeral : Numeral value n rest) :
    parseJitOptLevel value options =
      if rest = [] ∧ n ≤ 2 then .ok { options with jitOptimizationLevel := BitVec.ofNat 8 n }
      else .error (.runtime ("Invalid JIT optimization level: " ++ .ofList value)) := by
  unfold parseJitOptLevel
  rw [stoull_ok_iff.mpr ⟨rest, numeral, rfl⟩]
  simp only [bind, Except.bind, ne_eq, numeral_nil_iff numeral, gt_iff_lt]
  split
  case isTrue bad =>
    rw [if_neg (not_and_or.mpr (bad.imp_right Nat.not_le.mpr))]
    rfl
  case isFalse good =>
    obtain ⟨none, small⟩ := not_or.mp good
    rw [if_pos ⟨not_not.mp none, Nat.not_lt.mp small⟩]
    rfl

/-- A setting is read as it is written. -/
lemma Setting.Written.parse {s : Setting} (written : s.Written argument) :
    parseArgument options argument = .ok (s.apply options) := by
  cases written with
  | engine mode => cases mode <;> rfl
  | jitThreshold gives numeral =>
    rw [parseArgument_threshold gives, parseJitThreshold_of_numeral numeral, if_pos rfl]
    rfl
  | jitOptimizationLevel gives numeral small =>
    rw [parseArgument_level gives, parseJitOptLevel_of_numeral numeral, if_pos ⟨rfl, small⟩]
    rfl

/-- A refused argument is refused with its message. -/
lemma Refused.parse {e} (refused : Refused argument e) :
    parseArgument options argument = .error e := by
  cases refused with
  | unknown engine threshold level =>
    rw [parseArgument_of_not_engine engine, parseOption, valueOf_eq_none_iff.mpr threshold,
      valueOf_eq_none_iff.mpr level]
  | @number _ value _ ne gives none =>
    have failed : stoull value = .error (.runtime "stoull") := by
      cases found : stoull value with
      | error e => rw [stoull_error found]
      | ok result =>
        obtain ⟨n, parsed⟩ := result
        obtain ⟨rest, numeral, _⟩ := stoull_ok_iff.mp found
        exact absurd numeral (none n rest)
    rcases ne with rfl | rfl
    · rw [parseArgument_threshold gives, parseJitThreshold, failed]
      rfl
    · rw [parseArgument_level gives, parseJitOptLevel, failed]
      rfl
  | jitThreshold gives numeral more =>
    rw [parseArgument_threshold gives, parseJitThreshold_of_numeral numeral, if_neg more]
  | jitOptimizationLevel gives numeral bad =>
    rw [parseArgument_level gives, parseJitOptLevel_of_numeral numeral,
      if_neg (not_and_or.mpr (bad.imp_right Nat.not_le.mpr))]

/-- An argument says a setting or is refused. -/
lemma written_or_refused (argument : String) :
    (∃ s : Setting, s.Written argument) ∨ ∃ e, Refused argument e := by
  by_cases engine : ∃ mode, argument = engineArgument mode
  case pos =>
    obtain ⟨mode, rfl⟩ := engine
    exact .inl ⟨_, .engine mode⟩
  case neg =>
    by_cases threshold : ∃ value, Gives jitThresholdOption value argument
    case pos =>
      obtain ⟨value, gives⟩ := threshold
      by_cases number : ∃ n rest, Numeral value n rest
      case pos =>
        obtain ⟨n, rest, numeral⟩ := number
        cases rest with
        | nil => exact .inl ⟨_, .jitThreshold gives numeral⟩
        | cons c rest => exact .inr ⟨_, .jitThreshold gives numeral (List.cons_ne_nil c rest)⟩
      case neg =>
        exact .inr ⟨_, .number (.inl rfl) gives fun n rest h => number ⟨n, rest, h⟩⟩
    case neg =>
      by_cases level : ∃ value, Gives jitOptLevelOption value argument
      case pos =>
        obtain ⟨value, gives⟩ := level
        by_cases number : ∃ n rest, Numeral value n rest
        case pos =>
          obtain ⟨n, rest, numeral⟩ := number
          by_cases good : rest = [] ∧ n ≤ 2
          case pos =>
            obtain ⟨rfl, small⟩ := good
            exact .inl ⟨_, .jitOptimizationLevel gives numeral small⟩
          case neg =>
            have bad := (not_and_or.mp good).imp_right Nat.not_le.mp
            exact .inr ⟨_, .jitOptimizationLevel gives numeral bad⟩
        case neg =>
          exact .inr ⟨_, .number (.inr rfl) gives fun n rest h => number ⟨n, rest, h⟩⟩
      case neg =>
        exact .inr ⟨_, .unknown (fun mode e => engine ⟨mode, e⟩)
          (fun value gives => threshold ⟨value, gives⟩) fun value gives => level ⟨value, gives⟩⟩

/-- What an argument does. -/
lemma parseArgument_ok_iff {options' : CommandLineOptions} :
    parseArgument options argument = .ok options' ↔
      ∃ s : Setting, s.Written argument ∧ options' = s.apply options := by
  constructor
  · intro parsed
    obtain ⟨s, written⟩ | ⟨e, refused⟩ := written_or_refused argument
    · rw [written.parse] at parsed
      cases parsed
      exact ⟨s, written, rfl⟩
    · rw [refused.parse] at parsed
      cases parsed
  · rintro ⟨s, written, rfl⟩
    exact written.parse

/-- An argument is refused exactly with this error. -/
lemma parseArgument_error_iff {e} :
    parseArgument options argument = .error e ↔ Refused argument e := by
  constructor
  · intro failed
    obtain ⟨s, written⟩ | ⟨e', refused⟩ := written_or_refused argument
    · rw [written.parse] at failed
      cases failed
    · rw [refused.parse] at failed
      cases failed
      exact refused
  · exact Refused.parse

/-! ## Command lines -/

/-- Every argument says a setting. -/
abbrev AllWritten : List Setting → List String → Prop := List.Forall₂ Setting.Written

/-- The settings are applied in order. -/
lemma foldlM_ok_iff {arguments : List String} {options' : CommandLineOptions} :
    arguments.foldlM parseArgument options = .ok options' ↔
      ∃ settings, AllWritten settings arguments ∧
        options' = settings.foldl Setting.apply options := by
  induction arguments generalizing options with
  | nil =>
    constructor
    · rintro ⟨⟩
      exact ⟨[], .nil, rfl⟩
    · rintro ⟨_, ⟨⟩, rfl⟩
      rfl
  | cons argument arguments ih =>
    rw [List.foldlM_cons]
    cases parsed : parseArgument options argument with
    | error e =>
      refine ⟨nofun, ?_⟩
      rintro ⟨_, all, _⟩
      cases all with
      | cons written _ =>
        rw [written.parse] at parsed
        cases parsed
    | ok options₁ =>
      obtain ⟨s, written, rfl⟩ := parseArgument_ok_iff.mp parsed
      show arguments.foldlM parseArgument (s.apply options) = .ok options' ↔ _
      rw [ih]
      constructor
      · rintro ⟨settings, all, rfl⟩
        exact ⟨s :: settings, .cons written all, rfl⟩
      · rintro ⟨_, all, rfl⟩
        cases all with
        | cons written all =>
          rw [written.parse] at parsed
          refine ⟨_, all, ?_⟩
          rw [List.foldl_cons, Except.ok.inj parsed]

/-- The first argument that is refused ends the loop. -/
lemma foldlM_error_iff {arguments : List String} {e} :
    arguments.foldlM parseArgument options = .error e ↔
      ∃ settings before argument after, arguments = before ++ argument :: after ∧
        AllWritten settings before ∧ Refused argument e := by
  induction arguments generalizing options with
  | nil =>
    refine ⟨nofun, ?_⟩
    rintro ⟨_, before, argument, after, empty, _⟩
    exact absurd empty.symm (by simp)
  | cons first arguments ih =>
    rw [List.foldlM_cons]
    cases parsed : parseArgument options first with
    | error e' =>
      have refused := parseArgument_error_iff.mp parsed
      constructor
      · rintro ⟨⟩
        exact ⟨[], [], first, arguments, rfl, .nil, refused⟩
      · rintro ⟨_, before, argument, after, split, all, refused'⟩
        cases all with
        | nil =>
          cases split
          rw [refused'.parse] at parsed
          cases parsed
          rfl
        | cons written all =>
          cases split
          rw [written.parse] at parsed
          cases parsed
    | ok options₁ =>
      show arguments.foldlM parseArgument options₁ = .error e ↔ _
      rw [ih]
      constructor
      · rintro ⟨settings, before, argument, after, rfl, all, refused⟩
        obtain ⟨s, written, _⟩ := parseArgument_ok_iff.mp parsed
        exact ⟨s :: settings, first :: before, argument, after, rfl, .cons written all, refused⟩
      · rintro ⟨_, before, argument, after, split, all, refused⟩
        cases all with
        | nil =>
          cases split
          rw [refused.parse] at parsed
          cases parsed
        | cons written all =>
          cases split
          exact ⟨_, _, argument, after, rfl, all, refused⟩

def Setting.mode? : Setting → Option TIExecutionMode
  | .engine mode => some mode
  | _ => none

def Setting.jitThreshold? : Setting → Option Nat
  | .jitThreshold n => some n
  | _ => none

def Setting.jitOptimizationLevel? : Setting → Option Byte
  | .jitOptimizationLevel level => some (BitVec.ofNat 8 level)
  | _ => none

/-- What the last setting of a kind sets. -/
def lastOf {α : Type} (tells : Setting → Option α) (settings : List Setting) (default : α) : α :=
  ((settings.filterMap tells).getLast?).getD default

/-- A field after some settings. -/
lemma foldl_apply {α : Type} (tells : Setting → Option α) (field : CommandLineOptions → α)
    (sets : ∀ options s, field (Setting.apply options s) = (tells s).getD (field options))
    (settings : List Setting) (options : CommandLineOptions) :
    field (settings.foldl Setting.apply options) = lastOf tells settings (field options) := by
  induction settings generalizing options with
  | nil => rfl
  | cons s settings ih =>
    rw [List.foldl_cons, ih, sets]
    unfold lastOf
    cases told : tells s with
    | none => rw [List.filterMap_cons_none told, Option.getD_none]
    | some a =>
      rw [List.filterMap_cons_some told, List.getLast?_cons, Option.getD_some, Option.getD_some]

/-- The options that settings come to. -/
def optionsOf (filename : String) (settings : List Setting) : CommandLineOptions where
  filename := filename
  mode := lastOf Setting.mode? settings .threaded
  jitThreshold := lastOf Setting.jitThreshold? settings 0
  jitOptimizationLevel := lastOf Setting.jitOptimizationLevel? settings 0

/-- The settings, applied one after the other, leave the last ones in force. -/
lemma foldl_eq_optionsOf (filename : String) (settings : List Setting) :
    settings.foldl Setting.apply { filename := filename } = optionsOf filename settings := by
  have none : settings.filterMap (fun _ => (none : Option String)) = [] := by simp
  apply CommandLineOptions.ext
  · have kept := foldl_apply (fun _ => .none) CommandLineOptions.filename
      (fun _ s => by cases s <;> rfl) settings { filename := filename }
    rw [kept, lastOf, none]
    rfl
  · exact foldl_apply _ CommandLineOptions.mode (fun _ s => by cases s <;> rfl) settings _
  · exact foldl_apply _ CommandLineOptions.jitThreshold (fun _ s => by cases s <;> rfl) settings _
  · exact foldl_apply _ CommandLineOptions.jitOptimizationLevel (fun _ s => by cases s <;> rfl)
      settings _

/-- The numbers are in the range of their types in the source, and the level is one of three. -/
structure ValidOptions (options : CommandLineOptions) : Prop where
  jitThreshold : options.jitThreshold < 2 ^ 64
  jitOptimizationLevel : options.jitOptimizationLevel.toNat ≤ 2

/-- A setting keeps the options valid. -/
lemma ValidOptions.apply {s : Setting} (range : ValidOptions options)
    (written : s.Written argument) : ValidOptions (s.apply options) := by
  obtain ⟨threshold, level⟩ := range
  cases written with
  | engine mode => exact ⟨threshold, level⟩
  | jitThreshold _ numeral => exact ⟨numeral.lt, level⟩
  | @jitOptimizationLevel _ _ n _ _ small =>
    refine ⟨threshold, ?_⟩
    show (BitVec.ofNat 8 n).toNat ≤ 2
    rw [BitVec.toNat_ofNat]
    omega

/-- All settings keep the options valid. -/
lemma ValidOptions.foldl {settings arguments} (range : ValidOptions options)
    (all : AllWritten settings arguments) :
    ValidOptions (settings.foldl Setting.apply options) := by
  induction all generalizing options with
  | nil => exact range
  | cons written _ ih => exact ih (range.apply written)

/-- Up to three arguments may follow the file name. -/
lemma parseCommandLine_eq (program filename : String) (rest : List String) :
    parseCommandLine (program :: filename :: rest) =
      if 3 < rest.length then .error (.runtime (usage program))
      else rest.foldlM parseArgument { filename := filename } := by
  unfold parseCommandLine
  dsimp only [List.length_cons]
  have many : rest.length + 1 + 1 > 5 ↔ 3 < rest.length := by omega
  rw [if_congr many rfl rfl]

/-- A command line is accepted exactly if at most three arguments follow the name of the file and
each of them says a setting. The last setting of a kind is in force, a kind without one has its
default, and the numbers are in range. A command line that is too long is answered with the usage
text, and another one with the message for its first argument that says no setting. -/
theorem command_line_exact (program filename : String) (rest : List String) :
    (∀ options, parseCommandLine (program :: filename :: rest) = .ok options ↔
      rest.length ≤ 3 ∧ ∃ settings, AllWritten settings rest ∧
        options = optionsOf filename settings) ∧
    (∀ options, parseCommandLine (program :: filename :: rest) = .ok options →
      ValidOptions options) ∧
    ∀ e, parseCommandLine (program :: filename :: rest) = .error e ↔
      3 < rest.length ∧ e = .runtime (usage program) ∨
      rest.length ≤ 3 ∧ ∃ settings before argument after, rest = before ++ argument :: after ∧
        AllWritten settings before ∧ Refused argument e := by
  rw [parseCommandLine_eq]
  split
  case isTrue long =>
    have short : ¬ rest.length ≤ 3 := Nat.not_le.mpr long
    refine ⟨fun options => ⟨nofun, fun h => absurd h.1 short⟩, nofun, fun e => ?_⟩
    constructor
    · rintro ⟨⟩
      exact .inl ⟨long, rfl⟩
    · rintro (⟨_, rfl⟩ | ⟨few, _⟩)
      · rfl
      · exact absurd few short
  case isFalse short =>
    have few : rest.length ≤ 3 := Nat.not_lt.mp short
    have accepted (options) : rest.foldlM parseArgument { filename := filename } = .ok options ↔
        ∃ settings, AllWritten settings rest ∧ options = optionsOf filename settings := by
      rw [foldlM_ok_iff]
      simp only [foldl_eq_optionsOf]
    refine ⟨fun options => ?_, fun options parsed => ?_, fun e => ?_⟩
    · rw [accepted, and_iff_right few]
    · obtain ⟨settings, all, rfl⟩ := (accepted options).mp parsed
      rw [← foldl_eq_optionsOf]
      exact ValidOptions.foldl ⟨Nat.two_pow_pos 64, Nat.zero_le 2⟩ all
    · rw [foldlM_error_iff, and_iff_right few]
      exact ⟨.inr, fun h => h.resolve_left fun long => absurd long.1 short⟩

/-! ## Writing a command line -/

/-- The digits of a number are a numeral. -/
lemma numeral_toString {n : Nat} (small : n < 2 ^ 64) : Numeral (Nat.toDigits 10 n) n [] := by
  have value : Nat.ofDigitChars 10 (Nat.toDigits 10 n) 0 = n := Nat.ofDigitChars_ten_toDigits
  refine ⟨[], [], Nat.toDigits 10 n, ?_, nofun, ?_, Nat.toDigits_ne_nil,
    fun c mem => Nat.isDigit_of_mem_toDigits (by decide) (by decide) mem, nofun, ?_⟩
  · rw [List.append_nil]
    rfl
  · rw [value]
    exact .unsigned
  · rw [value]
    exact small

/-- The command line for some options. -/
def writeCommandLine (program : String) (options : CommandLineOptions) : List String :=
  [program, options.filename, engineArgument options.mode,
    jitThresholdOption ++ toString options.jitThreshold,
    jitOptLevelOption ++ toString options.jitOptimizationLevel.toNat]

/-- An option with a number gives its digits. -/
lemma gives_toString (option : String) (n : Nat) :
    Gives option (Nat.toDigits 10 n) (option ++ toString n) := by
  unfold Gives
  rw [String.toList_append]
  congr 1
  simp

/-- The command line for some options is read back. -/
lemma parseCommandLine_write (program : String) (range : ValidOptions options) :
    parseCommandLine (writeCommandLine program options) = .ok options := by
  obtain ⟨threshold, level⟩ := range
  have all : AllWritten [.engine options.mode, .jitThreshold options.jitThreshold,
      .jitOptimizationLevel options.jitOptimizationLevel.toNat]
      ((writeCommandLine program options).drop 2) :=
    .cons (.engine _) (.cons (.jitThreshold (gives_toString _ _) (numeral_toString threshold))
      (.cons (.jitOptimizationLevel (gives_toString _ _) (numeral_toString (by omega)) level) .nil))
  refine (parseCommandLine_eq program options.filename _).trans ?_
  refine (foldlM_ok_iff.mpr ⟨_, all, rfl⟩).trans (congrArg Except.ok ?_)
  apply CommandLineOptions.ext
  · rfl
  · rfl
  · rfl
  · show BitVec.ofNat 8 options.jitOptimizationLevel.toNat = options.jitOptimizationLevel
    rw [BitVec.ofNat_toNat, BitVec.setWidth_eq]

end ToyIsa.CommandLine
