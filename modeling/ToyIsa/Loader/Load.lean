import ToyIsa.Loader.Segments
import ToyIsa.Toy.Scripted

/-!
# Loading a program

`loadBinary_ok_iff` says which files are loaded, `loadBinary_loaded` what a load makes of the
context and `loadBinary_error` what a load that fails leaves of it. A failing load never touches the
registers, the status or the block cache, but the segments before the offending one stay in memory.
-/

namespace ToyIsa

open ExecutionContext TIMemory

variable {σ : Type}

namespace ElfFile

/-- The file is an executable of the machine. -/
def HeaderOk (file : ElfFile) : Prop :=
  file.type = etExec ∧ file.elfClass = elfClass32 ∧ file.encoding = elfData2Lsb ∧
    file.machine = TI32.elfMachine

/-- The loader accepts the file, for a memory of `size` bytes. -/
structure Loadable (size : Nat) (file : ElfFile) : Prop where
  header : file.HeaderOk
  accepted : ∀ s ∈ file.segments, s.Accepted size
  code : ∃ s ∈ file.segments, s.Executable

/-- The header fields and program headers of a file of class 32 are 32 bits wide. -/
structure Class32 (file : ElfFile) : Prop where
  entry : file.entry < 2 ^ 32
  segments : ∀ s ∈ file.segments, s.Class32

end ElfFile

/-- A load of `file` takes `c` to `d`. -/
structure Loaded (file : ElfFile) (c d : ExecutionContext σ) : Prop where
  memory : LoadsTo file.segments c.memory d.memory
  pc : d.cpu.pc.toNat = file.entry
  registers : d.cpu.registers = c.cpu.registers
  state : d.state = { status := .running, exitCode := 0 }
  blocks : ∀ a, d.blockCache.blocks a = none
  jitEntries : ∀ a, d.blockCache.jitEntries a = none
  rest : d = { c with
    cpu := d.cpu, memory := d.memory, state := d.state, blockCache := d.blockCache }

/-- What a load that fails leaves: nothing has happened before the loop over the segments, the loop
stops at the first segment that is not accepted, and a file without code is loaded all the same. -/
inductive FailedLoad (c : ExecutionContext σ) :
    Option ElfFile → Word → ExecutionContext σ → Prop where
  | address {file loadAddress} : loadAddress ≠ 0 → FailedLoad c file loadAddress c
  | unreadable {loadAddress} : FailedLoad c none loadAddress c
  | header {file loadAddress} : ¬ file.HeaderOk → FailedLoad c (some file) loadAddress c
  | refused {file good bad rest m m'} :
    file.HeaderOk →
    file.segments = good ++ bad :: rest →
    (∀ s ∈ good, s.Accepted c.memory.size) →
    ¬ bad.Accepted c.memory.size →
    LoadsTo good c.memory m →
    Refuses bad m m' →
    FailedLoad c (some file) 0 { c with memory := m' }
  | noCode {file m} :
    file.HeaderOk →
    (∀ s ∈ file.segments, s.Accepted c.memory.size ∧ ¬ s.Executable) →
    LoadsTo file.segments c.memory m →
    FailedLoad c (some file) 0 { c with memory := m }

section

variable {filename : String} {file : ElfFile} {c : ExecutionContext σ}

/-- A file without the header is refused at once. -/
lemma loadBinary_header (bad : ¬ file.HeaderOk) :
    loadBinary filename (some file) 0 c =
      .error (loaderError "Expected a 32-bit little-endian Toy ISA ELF") c := by
  have bad' : file.type ≠ ElfFile.etExec ∨ file.elfClass ≠ ElfFile.elfClass32 ∨
      file.encoding ≠ ElfFile.elfData2Lsb ∨ file.machine ≠ TI32.elfMachine := by
    unfold ElfFile.HeaderOk at bad
    tauto
  unfold loadBinary
  rw [if_neg (by simp)]
  dsimp only
  rw [if_pos bad', EState.throw_apply]

/-- What follows the loop over the segments. -/
lemma loadBinary_segments (header : file.HeaderOk) :
    loadBinary filename (some file) 0 c =
      match loadSegments file.segments false c.memory with
      | .error e m => .error e { c with memory := m }
      | .ok false m =>
        .error (loaderError "ELF must contain a nonempty executable load segment")
          { c with memory := m }
      | .ok true m => .ok () { c with
          cpu := { c.cpu with pc := BitVec.ofNat 32 file.entry }
          memory := m
          state := { status := .running, exitCode := 0 }
          blockCache := c.blockCache.clear } := by
  have good : ¬ (file.type ≠ ElfFile.etExec ∨ file.elfClass ≠ ElfFile.elfClass32 ∨
      file.encoding ≠ ElfFile.elfData2Lsb ∨ file.machine ≠ TI32.elfMachine) := by
    unfold ElfFile.HeaderOk at header
    tauto
  unfold loadBinary
  rw [if_neg (by simp)]
  dsimp only
  rw [if_neg good, EState.bind_apply]
  unfold onMemory
  cases loadSegments file.segments false c.memory with
  | error e m => rfl
  | ok found m =>
    cases found with
    | true => rfl
    | false => rfl

/-- A failing load keeps everything but the bytes and the regions of memory. -/
lemma FailedLoad.keeps {source : Option ElfFile} {loadAddress} {d : ExecutionContext σ}
    (h : FailedLoad c source loadAddress d) :
    d.cpu = c.cpu ∧ d.state = c.state ∧ d.blockCache = c.blockCache ∧
      d.memory.dirtyCodeRanges = c.memory.dirtyCodeRanges ∧ d.memory.size = c.memory.size := by
  cases h with
  | address => exact ⟨rfl, rfl, rfl, rfl, rfl⟩
  | unreadable => exact ⟨rfl, rfl, rfl, rfl, rfl⟩
  | header => exact ⟨rfl, rfl, rfl, rfl, rfl⟩
  | refused _ _ _ _ loads refuses =>
    exact ⟨rfl, rfl, rfl, refuses.dirty.trans loads.dirty,
      (congrArg List.length refuses.bytes).trans loads.size⟩
  | noCode _ _ loads => exact ⟨rfl, rfl, rfl, loads.dirty, loads.size⟩

/-- Every load, in a file whose header fields are as wide as its class says. -/
lemma loadBinary_cases (fields : file.elfClass = ElfFile.elfClass32 → file.Class32) :
    (∃ d, loadBinary filename (some file) 0 c = .ok () d ∧ file.Loadable c.memory.size ∧
      Loaded file c d) ∨
    ∃ e d, loadBinary filename (some file) 0 c = .error e d ∧ ¬ file.Loadable c.memory.size ∧
      e.IsSimulation ∧ FailedLoad c (some file) 0 d := by
  by_cases header : file.HeaderOk
  case neg =>
    exact .inr ⟨_, c, loadBinary_header header, fun h => header h.header, trivial, .header header⟩
  have wide := fields header.2.1
  rw [loadBinary_segments header]
  have ends := @loadSegments_cases file.segments false c.memory wide.segments
  generalize loadSegments file.segments false c.memory = r at ends
  cases ends with
  | @loaded m' all loads =>
    rw [Bool.false_or]
    cases code : file.segments.any (decide ·.Executable) with
    | true =>
      obtain ⟨s, mem, exec⟩ := List.any_eq_true.mp code
      refine .inl ⟨_, rfl, ⟨header, all, s, mem, of_decide_eq_true exec⟩, ⟨loads, ?_, rfl, rfl,
        fun _ => rfl, fun _ => rfl, rfl⟩⟩
      exact (BitVec.toNat_ofNat _ _).trans (Nat.mod_eq_of_lt wide.entry)
    | false =>
      -- all segments are accepted, and none of them is code
      have data : ∀ s ∈ file.segments, ¬ s.Executable := by
        intro s mem exec
        exact List.any_eq_false.mp code s mem (decide_eq_true exec)
      refine .inr ⟨_, _, rfl, ?_, trivial,
        .noCode header (fun s mem => ⟨all s mem, data s mem⟩) loads⟩
      rintro ⟨_, _, s, mem, exec⟩
      exact data s mem exec
  | @refused good bad rest e m1 m' split all refused loads refuses simulation =>
    -- one segment that is not accepted is enough
    refine .inr ⟨e, _, rfl, ?_, simulation, .refused header split all refused loads refuses⟩
    intro loadable
    apply refused
    apply loadable.accepted
    rw [split]
    exact List.mem_append_right _ List.mem_cons_self

end

/-- A file is loaded exactly if it is loadable, and then memory holds its segments. -/
theorem load_exact (filename) (file : ElfFile)
    (fields : file.elfClass = ElfFile.elfClass32 → file.Class32) (c : ExecutionContext σ) :
    ((∃ d, loadBinary filename (some file) 0 c = .ok () d) ↔ file.Loadable c.memory.size) ∧
    ∀ d, loadBinary filename (some file) 0 c = .ok () d → Loaded file c d := by
  obtain ⟨d, ok, loadable, loaded⟩ | ⟨e, d, error, not, _⟩ :=
    @loadBinary_cases σ filename file c fields
  · refine ⟨⟨fun _ => loadable, fun _ => ⟨d, ok⟩⟩, fun d' ok' => ?_⟩
    rw [ok] at ok'
    cases ok'
    exact loaded
  · refine ⟨⟨fun ⟨d', ok⟩ => ?_, fun loadable => absurd loadable not⟩, fun d' ok => ?_⟩
    · rw [error] at ok
      cases ok
    · rw [error] at ok
      cases ok

/-- A file with the given segments and entry 0. -/
def ElfFile.ofSegments (segments : List ElfSegment) : ElfFile where
  type := etExec
  elfClass := elfClass32
  encoding := elfData2Lsb
  machine := TI32.elfMachine
  entry := 0
  segments := segments

/-- One segment of code: the word `J 0`. -/
def jumpFile : ElfFile := .ofSegments [⟨ElfFile.ptLoad, ElfFile.pfX, 0, 4, [0, 0, 0, 0xFC]⟩]

/-- The file with one segment fits in eight bytes. -/
lemma jumpFile_loadable : jumpFile.Loadable 8 where
  header := ⟨rfl, rfl, rfl, rfl⟩
  accepted s mem := by
    obtain rfl := List.mem_singleton.mp mem
    exact fun _ => ⟨by decide, by decide, fun _ => by decide⟩
  code := ⟨_, List.mem_cons_self, by decide⟩

/-- The file is loaded into a memory of eight bytes. -/
theorem load_exact_jumpFile :
    ∃ d, loadBinary "jump" (some jumpFile) 0 (.ofMemory (.create 8)) = .ok () d ∧
      Loaded jumpFile (.ofMemory (.create 8)) d := by
  obtain ⟨loads, loaded⟩ := load_exact "jump" jumpFile
    (fun _ => ⟨by decide, by unfold ElfSegment.Class32; decide⟩) (.ofMemory (.create 8))
  obtain ⟨d, ok⟩ := loads.mpr jumpFile_loadable
  exact ⟨d, ok, loaded d ok⟩

/-- A load that fails raises a `SimulationException`, and leaves everything but the bytes and the
regions of memory as it was: these are what the segments before the offending one make of them, and
the region of that one if it was registered. -/
theorem failed_load_effect (filename) (file : Option ElfFile) (loadAddress : Word)
    (fields : ∀ f, file = some f → f.elfClass = ElfFile.elfClass32 → f.Class32)
    (c d : ExecutionContext σ) (e) (h : loadBinary filename file loadAddress c = .error e d) :
    e.IsSimulation ∧ FailedLoad c file loadAddress d ∧ d.cpu = c.cpu ∧ d.state = c.state ∧
      d.blockCache = c.blockCache ∧ d.memory.dirtyCodeRanges = c.memory.dirtyCodeRanges ∧
      d.memory.size = c.memory.size := by
  have failed : e.IsSimulation ∧ FailedLoad c file loadAddress d := by
    by_cases atZero : loadAddress = 0
    · subst atZero
      cases file with
      | none =>
        unfold loadBinary at h
        rw [if_neg (by simp)] at h
        cases h
        exact ⟨trivial, .unreadable⟩
      | some file =>
        obtain ⟨d', ok, _⟩ | ⟨e', d', error, _, simulation, failed⟩ :=
          @loadBinary_cases σ filename file c (fields file rfl)
        · rw [ok] at h
          cases h
        · rw [error] at h
          cases h
          exact ⟨simulation, failed⟩
    · unfold loadBinary at h
      rw [if_pos atZero] at h
      cases h
      exact ⟨trivial, .address atZero⟩
  exact ⟨failed.1, failed.2, failed.2.keeps⟩

/-- A segment of zeros, and one with more bytes in the file than in memory. -/
def badSecond : ElfFile :=
  .ofSegments [⟨ElfFile.ptLoad, 0, 0, 4, []⟩, ⟨ElfFile.ptLoad, 0, 0, 0, [0]⟩]

/-- A context that has run the word `J 0` at address 0. -/
def jumpCached : ExecutionContext Script :=
  { selfLoop with blockCache := {
      blocks := Function.update (fun _ => none) 0
        (some { startAddress := 0, instructions := [TIDecoder.decode 0xFC000000] }) } }

/-- The load fails, and the valid block at address 0 is not what memory holds there. -/
theorem badSecond_overwrites : ∃ e d block,
    loadBinary "bad" (some badSecond) 0 jumpCached = .error e d ∧
    d.memory.bytes ≠ jumpCached.memory.bytes ∧
    d.blockCache.blocks 0 = some block ∧ block.valid = true ∧
    block.instructions = [TIDecoder.decode 0xFC000000] ∧ d.memory.read32 0 = .ok 0 :=
  ⟨_, _, { startAddress := 0, instructions := [TIDecoder.decode 0xFC000000] },
    rfl, by decide, rfl, rfl, rfl, rfl⟩

/-- The same file. -/
theorem failed_load_effect_badSecond : ∃ e d,
    loadBinary "bad" (some badSecond) 0 jumpCached = .error e d ∧
    e.IsSimulation ∧ FailedLoad jumpCached (some badSecond) 0 d ∧ d.cpu = jumpCached.cpu ∧
      d.state = jumpCached.state ∧ d.blockCache = jumpCached.blockCache ∧
      d.memory.dirtyCodeRanges = jumpCached.memory.dirtyCodeRanges ∧
      d.memory.size = jumpCached.memory.size := by
  refine ⟨_, _, rfl, failed_load_effect "bad" (some badSecond) 0 ?_ jumpCached _ _ rfl⟩
  rintro f ⟨⟩ _
  exact ⟨by decide, by unfold ElfSegment.Class32; decide⟩

end ToyIsa
