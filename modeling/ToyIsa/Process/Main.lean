import ToyIsa.Assembler.Image
import ToyIsa.Process.CommandLine
import ToyIsa.Source.Engines
import ToyIsa.Source.Fibonacci

/-!
# The process

Port of `main` of `main.cpp`, from the command line to what is printed. `process_preserved` puts the
whole chain together: what the process prints for an assembled source is what the source means.
-/

namespace ToyIsa

open ExecutionContext Machine Asm CommandLine

variable {σ : Type}

/-- `MEMORY_SIZE`. -/
def memorySize : Nat := 64 * 1024 * 1024

/-- The context that `main` builds. -/
def CommandLineOptions.context (options : CommandLineOptions) (host : σ) : ExecutionContext σ where
  memory := .create memorySize
  mode := options.mode
  jitThreshold := options.jitThreshold
  jitOptimizationLevel := options.jitOptimizationLevel
  host := host

/-- The handler of `main`. Undefined behaviour has no end. -/
def reported : Failure → Option ProcessEnd
  | .simulation _ message => some ⟨"", message ++ "\n", 1⟩
  | .runtime message => some ⟨"", message ++ "\n", 1⟩
  | .undefined => none

section

variable [Host σ]

/-- `files` is what the ELF reader delivers for a file name. -/
def main (ir : IrLibrary) (files : String → Option ElfFile) (arguments : List String) (host : σ)
    (fuel : Nat) : Option (Option ProcessEnd) :=
  match parseCommandLine arguments with
  | .error e => some (reported e)
  | .ok options =>
    match loadBinary options.filename (files options.filename) 0 (options.context host) with
    | .error e _ => some (reported e)
    | .ok () c => (run ir fuel c).map mainEnd

/-- The process ends, and leaves this behind. -/
def Ends (ir : IrLibrary) (files : String → Option ElfFile) (arguments : List String) (host : σ)
    (left : Option ProcessEnd) : Prop := ∃ fuel, main ir files arguments host fuel = some left

variable {ir : IrLibrary} {files : String → Option ElfFile} {arguments : List String} {host : σ}
variable {options : CommandLineOptions} {left : Option ProcessEnd}

/-- A process whose file is loaded ends as the run does. -/
lemma ends_iff_of_load {c} (parsed : parseCommandLine arguments = .ok options)
    (loaded : loadBinary options.filename (files options.filename) 0 (options.context host) =
      .ok () c) :
    Ends ir files arguments host left ↔ ∃ o, Runs ir c o ∧ left = mainEnd o := by
  have eq fuel : main ir files arguments host fuel = (run ir fuel c).map mainEnd := by
    unfold main
    rw [parsed]
    dsimp only
    rw [loaded]
  constructor
  · rintro ⟨fuel, h⟩
    rw [eq] at h
    obtain ⟨o, ran, rfl⟩ := Option.map_eq_some_iff.mp h
    exact ⟨o, ⟨fuel, ran⟩, rfl⟩
  · rintro ⟨o, ⟨fuel, ran⟩, rfl⟩
    exact ⟨fuel, (eq fuel).trans (by rw [ran]; rfl)⟩

/-- A process whose file is refused reports it. -/
lemma ends_iff_of_refused {e c} (parsed : parseCommandLine arguments = .ok options)
    (refused : loadBinary options.filename (files options.filename) 0 (options.context host) =
      .error e c) :
    Ends ir files arguments host left ↔ left = reported e := by
  have eq fuel : main ir files arguments host fuel = some (reported e) := by
    unfold main
    rw [parsed]
    dsimp only
    rw [refused]
  constructor
  · rintro ⟨fuel, h⟩
    rw [eq] at h
    exact (Option.some.inj h).symm
  · rintro rfl
    exact ⟨0, eq 0⟩

end

/-- A process that reports an exit code. -/
def endedWith (code : Word) : ProcessEnd :=
  ⟨"Process ended with exit code: " ++ toString code.toNat ++ "\n", "", 0⟩

/-- The end of `main` depends on the exception or the exit code only. -/
lemma mainEnd_congr {o o' : Outcome σ} (failure : Outcome.failure? o' = Outcome.failure? o)
    (exitCode : o'.context.state.exitCode = o.context.state.exitCode) : mainEnd o' = mainEnd o := by
  cases o with
  | ok u c =>
    cases o' with
    | ok u' c' =>
      have same : c'.state.exitCode = c.state.exitCode := exitCode
      show some (endedWith c'.state.exitCode) = some (endedWith c.state.exitCode)
      rw [same]
    | error e' c' => cases failure
  | error e c =>
    cases o' with
    | ok u' c' => cases failure
    | error e' c' =>
      cases failure
      cases e <;> rfl

namespace Asm

section

variable {words : List Nat} {data : List Byte} {options : CommandLineOptions} {host : σ}
variable {d : ExecutionContext σ}

/-- A context that `main` has loaded an assembled file into is ready to run it. -/
lemma Booted.fresh (booted : Booted words data (options.context host) d)
    (fits : 4 * words.length + data.length ≤ memorySize) : Fresh words d := by
  have size : d.memory.size = memorySize := by
    rw [booted.size]
    exact List.length_replicate
  have limit : memorySize = 2 ^ 26 := rfl
  refine ⟨booted.pc, ?_, ?_, by omega, ?_, by omega⟩
  · rw [booted.state]
  · rw [booted.cache, TIBasicBlockCache.clear_clear]
  · rw [booted.regions]
    rfl

/-- Memory holds the text after the load. -/
lemma Booted.text (booted : Booted words data (options.context host) d) :
    HoldsText words d.memory := by
  unfold HoldsText Store.slice
  rw [booted.bytes, List.drop_zero, List.append_assoc, List.take_left]

end

variable [Host σ] {φ : Type} {elf : ElfLibrary φ} {ir : IrLibrary}
variable {files : String → Option ElfFile} {arguments : List String} {host : σ}
variable {options : CommandLineOptions}

/-- The process for an assembled file that does not fit in memory reports that, and one that fits
boots and ends as its run does. -/
lemma process_cases (ir : IrLibrary) (host : σ) {words : List Nat} {data : List Byte}
    (ne : words ≠ []) (parsed : parseCommandLine arguments = .ok options)
    (stored : files options.filename =
      some (.ofSegments [textSegment (pack words), dataSegment (pack words) data])) :
    (4 * words.length + data.length ≤ memorySize ∧
      ∃ d, Booted words data (options.context host) d ∧
        ∀ left, Ends ir files arguments host left ↔ ∃ o, Runs ir d o ∧ left = mainEnd o) ∨
    (¬ 4 * words.length + data.length ≤ memorySize ∧
      ∃ message, ∀ left, Ends ir files arguments host left ↔ left = some ⟨"", message, 1⟩) := by
  have size : (options.context host).memory.size = memorySize := List.length_replicate
  have small : (options.context host).memory.size < 2 ^ 32 := by
    rw [size]
    decide
  obtain ⟨fits, d, loaded, booted⟩ | ⟨large, e, d, thrown, refused⟩ :=
    load_cases options.filename data small ne
  · rw [← stored] at loaded
    rw [size] at fits
    exact .inl ⟨fits, d, booted, fun left => ends_iff_of_load parsed loaded⟩
  · rw [← stored] at refused
    rw [size] at large
    cases e with
    | simulation code message =>
      exact .inr ⟨large, _, fun left => ends_iff_of_refused parsed refused⟩
    | runtime | undefined => cases thrown

/-- What is printed for a source is what the source means. The assembler writes a file for the
source and the interpreter is started on it, with any engine, threshold and level. If the sections
do not fit in memory, but in the headers of the file, the process reports an error. If they fit in
memory it boots, and as long as the source stays inside its text and leaves it alone, the process
ends exactly if the source stops. It prints the exit code of a source that exits, and an
interpreting engine prints the message of a source that faults. -/
theorem process_preserved (docElf : elf.Documented) (doc : ir.Documented) (compiles : ir.Compiles)
    {output source file} (h : ToyAs.assembleFile elf output source = .ok file)
    (parsed : parseCommandLine arguments = .ok options)
    (stored : files options.filename = elf.load file) :
    ∃ a words, assemble source = .ok (a, words) ∧
      (memorySize < 4 * words.length + a.data.length → Short words a.data →
        ∃ message, ∀ left, Ends ir files arguments host left ↔ left = some ⟨"", message, 1⟩) ∧
      (4 * words.length + a.data.length ≤ memorySize →
        ∃ d, Booted words a.data (options.context host) d ∧
        (Contained source words d.inSwitch →
          ((∃ r, Halts (sourceStep source) ⟨0, d.inSwitch⟩ r) ↔
            ∃ left, Ends ir files arguments host left) ∧
          ∀ r left, Halts (sourceStep source) ⟨0, d.inSwitch⟩ r →
            Ends ir files arguments host left →
            ∃ position o, r = .stopped position o ∧
              (∀ c, o = .ok () c → left = some (endedWith c.state.exitCode)) ∧
              (options.mode ≠ .jit → left = mainEnd o))) := by
  obtain ⟨a, words, assembled, ne, read⟩ := ToyAs.load_assembleFile docElf h
  refine ⟨a, words, assembled, fun large short => ?_, fun fits => ?_⟩
  · rw [read short] at stored
    obtain ⟨fits, _⟩ | ⟨_, message, ends⟩ := process_cases ir host ne parsed stored
    · exact absurd fits (Nat.not_le.mpr large)
    · exact ⟨message, ends⟩
  · rw [read (.of_fits fits (by decide))] at stored
    obtain ⟨_, d, booted, ends⟩ | ⟨large, _⟩ := process_cases ir host ne parsed stored
    case inr => exact absurd fits large
    refine ⟨d, booted, fun contained => ?_⟩
    obtain ⟨forward, backward⟩ :=
      source_in_engine doc compiles assembled (booted.fresh fits) contained
    have mode : d.mode = options.mode := by
      rw [booted.rest]
      rfl
    refine ⟨⟨?_, ?_⟩, fun r left halts ended => ?_⟩
    · rintro ⟨r, halts⟩
      obtain ⟨_, _, o', _, runs, _⟩ := forward r halts
      exact ⟨_, (ends _).mpr ⟨o', runs, rfl⟩⟩
    · rintro ⟨left, ended⟩
      obtain ⟨o', runs, _⟩ := (ends left).mp ended
      exact backward o' runs
    · obtain ⟨position, o, o₁, rfl, runs₁, same⟩ := forward r halts
      obtain ⟨o', runs, rfl⟩ := (ends left).mp ended
      obtain rfl := (runs_iff_halts.mp runs₁).unique (runs_iff_halts.mp runs)
      refine ⟨position, o, rfl, ?_, fun interpreting => ?_⟩
      · rintro c rfl
        obtain ⟨d', rfl, _⟩ := same.exits c rfl
        exact congrArg (fun code => some (endedWith code)) same.exitCode
      · rw [← mode] at interpreting
        exact mainEnd_congr (same.faults interpreting).1 same.exitCode

/-- `toy fib.elf --engine=jit --jit-threshold=2 --jit-opt-level=1`. -/
def jitOptions : CommandLineOptions :=
  { filename := "fib.elf", mode := .jit, jitThreshold := 2, jitOptimizationLevel := 1 }

/-- The options are in range. -/
lemma jitOptions_valid : ValidOptions jitOptions := ⟨by decide, by decide⟩

/-- The ninth Fibonacci number in the JIT. -/
theorem process_preserved_ninth : ∃ file,
    ToyAs.assembleFile .reference "fib.elf" (fibbonachi 9) = .ok file ∧
    Ends .reference (fun _ => some file) (writeCommandLine "toy" jitOptions) ({} : Script)
      (some (endedWith 34)) := by
  obtain ⟨file, saved⟩ : ∃ file,
      ToyAs.assembleFile .reference "fib.elf" (fibbonachi 9) = .ok file := ⟨_, rfl⟩
  have parsed := parseCommandLine_write "toy" jitOptions_valid
  obtain ⟨a, words, assembled, _, boots⟩ := @process_preserved Script _ _ .reference
    .reference (fun _ => some file) _ {} jitOptions ElfLibrary.reference_documented
    IrLibrary.reference_documented IrLibrary.reference_compiles _ _ _ saved parsed rfl
  have fits : 4 * words.length + a.data.length ≤ memorySize := by
    obtain ⟨count, _⟩ := word_of_call assembled
    rw [count, (assemble_ok assembled).1.data]
    decide
  obtain ⟨d, booted, preserved⟩ := boots fits
  have running : d.inSwitch.state.status = .running := congrArg TIExecutionState.status booted.state
  obtain ⟨⟨c, halts, code, _⟩, contained⟩ := fibbonachi_exits running booted.text
  obtain ⟨ends, result⟩ := preserved contained
  obtain ⟨left, ended⟩ := ends.mp ⟨_, halts⟩
  obtain ⟨_, _, same, exits, _⟩ := result _ left halts ended
  cases same
  refine ⟨file, saved, ?_⟩
  have thirtyFour : c.state.exitCode = 34 := code.trans (by decide)
  rw [exits c rfl, thirtyFour] at ended
  exact ended

/-- The Fibonacci program, assembled and started with any engine, threshold and level, prints a
Fibonacci number modulo `2 ^ 32`, that of its number or, below 3, of `2 ^ 32` more, and ends without
an error. -/
theorem fibbonachi_prints (docElf : elf.Documented) (doc : ir.Documented) (compiles : ir.Compiles)
    {n output file} (h : ToyAs.assembleFile elf output (fibbonachi n) = .ok file)
    (parsed : parseCommandLine arguments = .ok options)
    (stored : files options.filename = elf.load file) :
    (-2 ^ 15 ≤ n ∧ n < 2 ^ 15) ∧ (3 ≤ n → fibbonachiIndex n = n.toNat) ∧
    (n < 3 → (fibbonachiIndex n : Int) = n + 2 ^ 32) ∧
    ∀ left, Ends ir files arguments host left ↔
      left = some (endedWith (.ofNat 32 (Nat.fib (fibbonachiIndex n)))) := by
  obtain ⟨a, words, assembled, ne, read⟩ := ToyAs.load_assembleFile docElf h
  have range : -2 ^ 15 ≤ n ∧ n < 2 ^ 15 := by
    obtain ⟨_, ⟨⟩, low, high⟩ := fibbonachi_wellFormed.mp (returns_assemble.mp ⟨_, assembled⟩)
    exact ⟨low, by omega⟩
  refine ⟨range, fun low => fibbonachiIndex_eq low range.2,
    fun high => fibbonachiIndex_of_lt range.1 high, fun left => ?_⟩
  have fits : 4 * words.length + a.data.length ≤ memorySize := by
    obtain ⟨count, _⟩ := word_of_call assembled
    rw [count, (assemble_ok assembled).1.data]
    show 4 * 12 + 0 ≤ memorySize
    decide
  rw [read (.of_fits fits (by decide))] at stored
  obtain ⟨_, d, booted, ends⟩ | ⟨large, _⟩ := process_cases ir host ne parsed stored
  case inr => exact absurd fits large
  have running : d.inSwitch.state.status = .running := congrArg TIExecutionState.status booted.state
  obtain ⟨⟨c, halts, code, _⟩, contained⟩ := fibbonachi_exits running booted.text
  obtain ⟨forward, _⟩ := source_in_engine doc compiles assembled (booted.fresh fits) contained
  obtain ⟨_, _, o₁, same, runs₁, result⟩ := forward _ halts
  cases same
  obtain ⟨d', rfl, _⟩ := result.exits c rfl
  have printed : mainEnd (.ok () d') =
      some (endedWith (.ofNat 32 (Nat.fib (fibbonachiIndex n)))) := by
    rw [← code]
    exact congrArg (fun code => some (endedWith code)) result.exitCode
  rw [ends, ← printed]
  constructor
  · rintro ⟨o', runs, rfl⟩
    rw [(runs_iff_halts.mp runs).unique (runs_iff_halts.mp runs₁)]
  · rintro rfl
    exact ⟨_, runs₁, rfl⟩

/-- The ninth Fibonacci number, also in the JIT. -/
theorem fibbonachi_prints_ninth : ∃ file,
    ToyAs.assembleFile .reference "fib.elf" (fibbonachi 9) = .ok file ∧
    ∀ left, Ends .reference (fun _ => some file) (writeCommandLine "toy" jitOptions) ({} : Script)
      left ↔ left = some (endedWith 34) := by
  obtain ⟨file, saved⟩ : ∃ file,
      ToyAs.assembleFile .reference "fib.elf" (fibbonachi 9) = .ok file := ⟨_, rfl⟩
  have parsed := parseCommandLine_write "toy" jitOptions_valid
  obtain ⟨_, index, _, prints⟩ := @fibbonachi_prints Script _ _ .reference .reference
    (fun _ => some file) _ {} jitOptions ElfLibrary.reference_documented
    IrLibrary.reference_documented IrLibrary.reference_compiles _ _ _ saved parsed rfl
  rw [index (by decide)] at prints
  exact ⟨file, saved, prints⟩

end Asm

end ToyIsa
