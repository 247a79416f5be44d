import ToyIsa.Assembler.ElfWriter
import ToyIsa.Assembler.Labels
import ToyIsa.Loader.Load

/-!
# From the source to the image in memory

What `toy_as.rb` writes, the interpreter loads: `image_exact` says that the assembled file is
refused only if it does not fit in memory, and that after a load memory holds the words of the
source from address 0 on, one for each instruction, then its data, and then what was there before.
-/

namespace ToyIsa.Asm

open ExecutionContext

variable {φ σ : Type} {elf : ElfLibrary φ} {text data : List Byte}

/-- What `writeElf` saves. -/
lemma ElfWriter.writeElf_eq {files output textFilename dataFilename}
    (ht : files textFilename = some text) (hd : files dataFilename = some data) :
    ElfWriter.writeElf elf files output textFilename dataFilename =
      if text = [] ∨ text.length % 4 ≠ 0 then .error "Incorrect test section format"
      else
        match elf.save (ofSections text data) with
        | some file => .ok file
        | none => .error ("Cannot write ELF file: " ++ output) := by
  have size : sectionAlignment.toNat = 4 := rfl
  unfold writeElf readBinary
  rw [ht, hd]
  simp only [Except.ok_bind, List.isEmpty_iff, size]
  split
  case isTrue => rfl
  case isFalse => cases elf.save (ofSections text data) <;> rfl

/-- `write_elf` saves exactly the nonempty sections of words. -/
lemma ToyAs.writeElf_ok_iff {output file} :
    ToyAs.writeElf elf output text data = .ok file ↔
      text ≠ [] ∧ text.length % 4 = 0 ∧ elf.save (ElfWriter.ofSections text data) = some file := by
  have other : dataFile ≠ textFile := by decide
  unfold ToyAs.writeElf ElfWriter.main
  dsimp only
  rw [ElfWriter.writeElf_eq (if_pos rfl : _ = some text)
    (by rw [if_neg other, if_pos rfl] : _ = some data)]
  split_ifs with bad
  · constructor
    · intro h
      cases h
    · rintro ⟨ne, aligned, _⟩
      obtain empty | odd := bad
      · exact absurd empty ne
      · exact absurd aligned odd
  · obtain ⟨ne, aligned⟩ := not_or.mp bad
    cases elf.save (ElfWriter.ofSections text data) with
    | none => simp
    | some f => simp [ne, not_not.mp aligned]

/-- The sections of the writer start their segments. -/
lemma ElfWriter.placed_ofSections (aligned : text.length % 4 = 0) (shortText : text.length < 2 ^ 32)
    (shortData : data.length < 2 ^ 32) : (ofSections text data).Placed := by
  intro s mem
  have size : sectionAlignment.toNat = 4 := rfl
  obtain rfl | mem := List.mem_cons.mp mem
  · exact ⟨rfl, rfl, rfl, shortText⟩
  · obtain rfl := List.mem_singleton.mp mem
    refine ⟨rfl, ?_, rfl, shortData⟩
    show (BitVec.ofNat 32 text.length).toNat % sectionAlignment.toNat = 0
    rw [BitVec.toNat_ofNat, size, Nat.mod_mod_of_dvd _ (by decide)]
    exact aligned

/-- The segments of the file. -/
def textSegment (text : List Byte) : ElfSegment :=
  ⟨ElfFile.ptLoad, ElfWriter.pfR ||| ElfFile.pfX, 0, text.length, text⟩

def dataSegment (text data : List Byte) : ElfSegment :=
  ⟨ElfFile.ptLoad, ElfWriter.pfR ||| ElfWriter.pfW, text.length % 2 ^ 32, data.length, data⟩

/-- What the loader reads of the two sections. -/
lemma delivered_ofSections (text data : List Byte) :
    (ElfWriter.ofSections text data).delivered =
      .ofSegments [textSegment text, dataSegment text data] := by
  have address : (BitVec.ofNat 32 text.length).toNat = text.length % 2 ^ 32 :=
    BitVec.toNat_ofNat _ _
  unfold ElfWriter.delivered ElfFile.ofSegments dataSegment
  rw [← address]
  rfl

/-- The header fields of the file are as wide as its class says. -/
lemma class32_ofSections (text data : List Byte) :
    (ElfFile.ofSegments [textSegment text, dataSegment text data]).Class32 := by
  refine ⟨Nat.two_pow_pos 32, fun s mem => ?_⟩
  obtain rfl | mem := List.mem_cons.mp mem
  · exact Nat.two_pow_pos 32
  · obtain rfl := List.mem_singleton.mp mem
    exact Nat.mod_lt _ (Nat.two_pow_pos 32)

/-- The text is code. -/
lemma executable_textSegment (ne : text ≠ []) : (textSegment text).Executable :=
  ⟨rfl, by simp [textSegment, ElfWriter.pfR, ElfFile.pfX],
    fun zero => ne (List.length_eq_zero_iff.mp zero)⟩

/-- The data is no code. -/
lemma not_executable_dataSegment : ¬ (dataSegment text data).Executable := by
  rintro ⟨_, flags, _⟩
  exact flags (by decide : (ElfWriter.pfR ||| ElfWriter.pfW) &&& ElfFile.pfX = 0)

/-- The file fits or is refused. -/
lemma loadable_ofSections {size} (small : size < 2 ^ 32) (ne : text ≠ [])
    (aligned : text.length % 4 = 0) :
    (ElfFile.ofSegments [textSegment text, dataSegment text data]).Loadable size ↔
      text.length + data.length ≤ size := by
  constructor
  · rintro ⟨_, accepted, _⟩
    obtain ⟨_, first, _⟩ := accepted (textSegment text) List.mem_cons_self rfl
    obtain ⟨_, second, _⟩ := accepted (dataSegment text data)
      (List.mem_cons_of_mem _ List.mem_cons_self) rfl
    unfold textSegment at first
    unfold dataSegment at second
    dsimp only at first second
    omega
  · intro fits
    refine ⟨⟨rfl, rfl, rfl, rfl⟩, fun s mem => ?_, _, List.mem_cons_self, executable_textSegment ne⟩
    obtain rfl | mem := List.mem_cons.mp mem
    · refine fun _ => ⟨Nat.le_refl _, ?_, fun _ => ⟨rfl, aligned⟩⟩
      unfold textSegment
      dsimp only
      omega
    · obtain rfl := List.mem_singleton.mp mem
      refine fun _ => ⟨Nat.le_refl _, ?_, fun code => absurd code not_executable_dataSegment⟩
      unfold dataSegment
      dsimp only
      omega

/-- The text covers the bytes from 0 on. -/
lemma covers_textSegment {x} : (textSegment text).Covers x ↔ x < text.length := by
  unfold ElfSegment.Covers textSegment
  dsimp only
  rw [Nat.zero_add]
  exact ⟨fun h => h.2.2, fun h => ⟨rfl, Nat.zero_le x, h⟩⟩

/-- The data covers the bytes behind the text. -/
lemma covers_dataSegment (small : text.length < 2 ^ 32) {x} :
    (dataSegment text data).Covers x ↔ text.length ≤ x ∧ x < text.length + data.length := by
  unfold ElfSegment.Covers dataSegment
  dsimp only
  rw [Nat.mod_eq_of_lt small]
  exact and_iff_right rfl

/-- The bytes that the two segments put in memory. -/
lemma imageAt_ofSections {old : List Byte} (small : text.length < 2 ^ 32) (x : Nat) :
    imageAt [textSegment text, dataSegment text data] x old[x]? =
      (text ++ data ++ old.drop (text.length + data.length))[x]? := by
  rw [imageAt_cons, imageAt_cons, imageAt_nil, List.append_assoc]
  by_cases inText : x < text.length
  case pos =>
    have other : ¬ (dataSegment text data).Covers x := by
      rw [covers_dataSegment small]
      omega
    rw [if_neg other, if_pos (covers_textSegment.mpr inText), List.getElem?_append_left inText]
    unfold ElfSegment.byteAt textSegment
    rw [List.getD_eq_getElem?_getD, Nat.sub_zero, List.getElem?_eq_getElem inText,
      Option.getD_some]
  case neg =>
    have before : text.length ≤ x := Nat.not_lt.mp inText
    rw [List.getElem?_append_right before]
    by_cases inData : x - text.length < data.length
    case pos =>
      rw [if_pos ((covers_dataSegment small).mpr ⟨before, by omega⟩),
        List.getElem?_append_left inData]
      unfold ElfSegment.byteAt dataSegment
      dsimp only
      rw [Nat.mod_eq_of_lt small, List.getD_eq_getElem?_getD, List.getElem?_eq_getElem inData,
        Option.getD_some]
    case neg =>
      have other : ¬ (dataSegment text data).Covers x := by
        rw [covers_dataSegment small]
        omega
      rw [if_neg other, if_neg (mt covers_textSegment.mp inText),
        List.getElem?_append_right (Nat.not_lt.mp inData), List.getElem?_drop]
      congr 1
      omega

/-- A context right after the load of an assembled file. -/
structure Booted (words : List Nat) (data : List Byte) (c d : ExecutionContext σ) : Prop where
  bytes : d.memory.bytes =
    pack words ++ data ++ c.memory.bytes.drop (4 * words.length + data.length)
  size : d.memory.size = c.memory.size
  regions : d.memory.executableRegions =
    c.memory.executableRegions ++ [⟨0, 4 * words.length⟩]
  dirty : d.memory.dirtyCodeRanges = c.memory.dirtyCodeRanges
  pc : d.cpu.pc = 0
  registers : d.cpu.registers = c.cpu.registers
  state : d.state = { status := .running, exitCode := 0 }
  cache : d.blockCache = c.blockCache.clear
  fetch : ∀ i w, words[i]? = some w → d.memory.read32 (.ofNat 32 (4 * i)) = .ok (.ofNat 32 w)
  rest : d = { c with
    cpu := d.cpu, memory := d.memory, state := d.state, blockCache := d.blockCache }

/-- The assembled file of a source. -/
lemma ToyAs.assembleFile_ok {output source file}
    (h : ToyAs.assembleFile elf output source = .ok file) :
    ∃ a words, assemble source = .ok (a, words) ∧ words ≠ [] ∧
      elf.save (ElfWriter.ofSections (pack words) a.data) = some file := by
  obtain ⟨⟨a, words⟩, assembled, h⟩ := Except.bind_eq_ok h
  obtain ⟨ne, _, saved⟩ := ToyAs.writeElf_ok_iff.mp h
  refine ⟨a, words, assembled, ?_, saved⟩
  rintro rfl
  exact ne rfl

/-- A load that succeeds clears the block cache. -/
lemma loadBinary_clears {filename} {file : ElfFile} {c d : ExecutionContext σ}
    (h : loadBinary filename (some file) 0 c = .ok () d) : d.blockCache = c.blockCache.clear := by
  by_cases header : file.HeaderOk
  case neg =>
    rw [loadBinary_header header] at h
    cases h
  case pos =>
    rw [loadBinary_segments header] at h
    cases found : loadSegments file.segments false c.memory with
    | error e m => rw [found] at h; cases h
    | ok code m =>
      rw [found] at h
      cases code with
      | false => cases h
      | true =>
        cases h
        rfl

/-- What is loaded of an assembled file. -/
lemma booted_of_load {filename} {words : List Nat} {c d : ExecutionContext σ}
    (small : c.memory.size < 2 ^ 32) (ne : pack words ≠ [])
    (fits : (pack words).length + data.length ≤ c.memory.size)
    (loaded : Loaded (.ofSegments [textSegment (pack words), dataSegment (pack words) data]) c d)
    (h : loadBinary filename
      (some (.ofSegments [textSegment (pack words), dataSegment (pack words) data])) 0 c =
        .ok () d) :
    Booted words data c d := by
  have length := length_pack words
  have bytes : d.memory.bytes =
      pack words ++ data ++ c.memory.bytes.drop (4 * words.length + data.length) := by
    apply List.ext_getElem?
    intro x
    have image := loaded.memory.bytes x
    rw [← length]
    exact image.trans (imageAt_ofSections (by omega) x)
  refine ⟨bytes, loaded.memory.size, ?_, loaded.memory.dirty, BitVec.eq_of_toNat_eq loaded.pc,
    loaded.registers, loaded.state, loadBinary_clears h,
    fun i w word => fetch_word word ?_ (by omega), loaded.rest⟩
  · have regions := loaded.memory.regions
    have code : ([textSegment (pack words), dataSegment (pack words) data].filter
        (·.Executable)) = [textSegment (pack words)] := by
      simp [executable_textSegment ne, not_executable_dataSegment]
    rw [regions, ElfFile.ofSegments, code, ← length]
    rfl
  · rw [bytes, Store.slice, List.drop_zero, List.append_assoc, List.take_left]

/-- The sections of an assembled file are as short as its headers can say. -/
def Short (words : List Nat) (data : List Byte) : Prop :=
  4 * words.length < 2 ^ 32 ∧ data.length < 2 ^ 32

/-- What fits in memory fits in the headers. -/
lemma Short.of_fits {words : List Nat} {size} (fits : 4 * words.length + data.length ≤ size)
    (small : size < 2 ^ 32) : Short words data := ⟨by omega, by omega⟩

/-- What the reader delivers for an assembled file. -/
lemma ToyAs.load_assembleFile (doc : elf.Documented) {output source file}
    (h : ToyAs.assembleFile elf output source = .ok file) :
    ∃ a words, assemble source = .ok (a, words) ∧ words ≠ [] ∧
      (Short words a.data → elf.load file =
        some (.ofSegments [textSegment (pack words), dataSegment (pack words) a.data])) := by
  obtain ⟨a, words, assembled, ne, saved⟩ := ToyAs.assembleFile_ok h
  have length := length_pack words
  refine ⟨a, words, assembled, ne, fun ⟨shortText, shortData⟩ => ?_⟩
  have read := doc _ _ (ElfWriter.placed_ofSections (by omega) (by omega) shortData) saved
  rwa [delivered_ofSections] at read

/-- The file is loaded if it fits and refused otherwise. -/
lemma load_cases (filename) (data : List Byte) {words : List Nat} {c : ExecutionContext σ}
    (small : c.memory.size < 2 ^ 32) (ne : words ≠ []) :
    (4 * words.length + data.length ≤ c.memory.size ∧ ∃ d, loadBinary filename
      (some (.ofSegments [textSegment (pack words), dataSegment (pack words) data])) 0 c =
        .ok () d ∧ Booted words data c d) ∨
    (¬ 4 * words.length + data.length ≤ c.memory.size ∧ ∃ e d, e.IsSimulation ∧ loadBinary filename
      (some (.ofSegments [textSegment (pack words), dataSegment (pack words) data])) 0 c =
        .error e d) := by
  have length := length_pack words
  have ne' : pack words ≠ [] := by
    intro empty
    rw [empty, List.length_nil] at length
    exact ne (List.length_eq_zero_iff.mp (by omega))
  rw [← length, ← loadable_ofSections small ne' (by omega)]
  obtain ⟨d, ok, loadable, loaded⟩ | ⟨e, d, error, refused, thrown, _⟩ :=
    @loadBinary_cases σ filename _ c fun _ => class32_ofSections (pack words) data
  · have fits := (loadable_ofSections small ne' (by omega)).mp loadable
    exact .inl ⟨loadable, d, ok, booted_of_load small ne' fits loaded ok⟩
  · exact .inr ⟨refused, e, d, thrown, error⟩

/-- The file that the assembler writes for a source, unless a section is too long for its headers,
is read back and loaded exactly if the words and the data fit in memory. Then the PC is at address
0, memory holds the words from there on, so that instruction `i` of the source is fetched at
`4 * i`, then the data, and then what was there before, and the words are the only new region of
code. -/
theorem image_exact (doc : elf.Documented) {output source file}
    (h : ToyAs.assembleFile elf output source = .ok file) (filename) (c : ExecutionContext σ)
    (small : c.memory.size < 2 ^ 32) :
    ∃ a words, assemble source = .ok (a, words) ∧
      words.length = (instructionCalls source).length ∧ words ≠ [] ∧
      a.data = source.flatMap Call.bytes? ∧
      (Short words a.data →
        ((∃ d, loadBinary filename (elf.load file) 0 c = .ok () d) ↔
          4 * words.length + a.data.length ≤ c.memory.size) ∧
        ∀ d, loadBinary filename (elf.load file) 0 c = .ok () d → Booted words a.data c d) := by
  obtain ⟨a, words, assembled, ne, read⟩ := ToyAs.load_assembleFile doc h
  obtain ⟨inv, _⟩ := assemble_ok assembled
  obtain ⟨count, _⟩ := word_of_call assembled
  refine ⟨a, words, assembled, count, ne, inv.data, fun short => ?_⟩
  rw [read short]
  obtain ⟨fits, d, ok, booted⟩ | ⟨large, e, d, _, error⟩ :=
    load_cases filename a.data small ne
  · refine ⟨⟨fun _ => fits, fun _ => ⟨d, ok⟩⟩, fun d' ok' => ?_⟩
    rw [ok] at ok'
    cases ok'
    exact booted
  · refine ⟨⟨fun ⟨d', ok⟩ => ?_, fun fits => absurd fits large⟩, fun d' ok => ?_⟩
    · rw [error] at ok
      cases ok
    · rw [error] at ok
      cases ok

/-- `Li x8, 60`, `Li x0, 42`, `syscall` and two bytes of data. -/
def exitSource : List Call :=
  [.sect (.symbol "text"), .instruction .li [.register 8, .integer 60] 1,
    .instruction .li [.register 0, .integer 42] 2, .instruction .syscall [] 3,
    .sect (.symbol "data"), .bytes (.string [1, 2])]

/-- The file of `exitSource` in a memory of 16 bytes. -/
theorem image_exact_exit : ∃ file a words,
    ToyAs.assembleFile .reference "exit.elf" exitSource = .ok file ∧
    assemble exitSource = .ok (a, words) ∧
    ∃ d, loadBinary "exit.elf" (some file) 0 (.ofMemory (.create 16)) = .ok () d ∧
      Booted words a.data (.ofMemory (.create 16)) d := by
  obtain ⟨file, saved⟩ : ∃ file,
      ToyAs.assembleFile .reference "exit.elf" exitSource = .ok file := ⟨_, rfl⟩
  obtain ⟨a, words, assembled, count, _, data, image⟩ :=
    image_exact ElfLibrary.reference_documented saved "exit.elf" (.ofMemory (.create 16))
      (by decide)
  have fits : 4 * words.length + a.data.length ≤ 16 := by
    rw [count, data]
    decide
  obtain ⟨loads, booted⟩ := image (.of_fits fits (by decide))
  obtain ⟨d, loaded⟩ := loads.mpr fits
  exact ⟨file, a, words, saved, assembled, d, loaded, booted d loaded⟩

end ToyIsa.Asm
