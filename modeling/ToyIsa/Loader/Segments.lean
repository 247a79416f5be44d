import ToyIsa.Memory.Ops
import ToyIsa.Toy.Loader

/-!
# Loading the segments

`ElfSegment.Accepted` is the condition the loop checks for a segment and `LoadsTo segments m m'`
what loading `segments` makes of a memory. `loadSegments_cases` says that the loop loads all
segments if they are all accepted, and otherwise fails at the first one that is not, after it has
loaded the segments before it.
-/

namespace ToyIsa

open TIMemory

namespace ElfSegment

/-- The address the loader uses, cut to 32 bits. -/
def address (s : ElfSegment) : Word := BitVec.ofNat 32 s.virtualAddress

/-- A segment that is registered as code. -/
def Executable (s : ElfSegment) : Prop :=
  s.type = ElfFile.ptLoad ∧ s.flags &&& ElfFile.pfX ≠ 0 ∧ s.memorySize ≠ 0

instance : DecidablePred Executable := fun _ => inferInstanceAs (Decidable (_ ∧ _ ∧ _))

def region (s : ElfSegment) : TICodeRange := ⟨s.address, s.memorySize⟩

/-- The segment puts a byte at `x`. -/
def Covers (s : ElfSegment) (x : Nat) : Prop :=
  s.type = ElfFile.ptLoad ∧ s.virtualAddress ≤ x ∧ x < s.virtualAddress + s.memorySize

instance (x) : DecidablePred (Covers · x) := fun _ => inferInstanceAs (Decidable (_ ∧ _ ∧ _))

/-- The byte of the segment at `x`: a byte of the file, or zero past the end of the file. -/
def byteAt (s : ElfSegment) (x : Nat) : Byte := s.data.getD (x - s.virtualAddress) 0

/-- What the loop checks of a segment, in a memory of `size` bytes. -/
def Accepted (size : Nat) (s : ElfSegment) : Prop :=
  s.type = ElfFile.ptLoad →
    s.fileSize ≤ s.memorySize ∧ s.virtualAddress + s.memorySize ≤ min size (2 ^ 32) ∧
    (s.Executable → s.virtualAddress % 4 = 0 ∧ s.memorySize % 4 = 0)

/-- A segment that the loop registers as code, before it is loaded. -/
def Registered (size : Nat) (s : ElfSegment) : Prop :=
  s.Executable ∧ s.virtualAddress % 4 = 0 ∧ s.memorySize % 4 = 0 ∧
    s.virtualAddress + s.memorySize ≤ min size (2 ^ 32)

instance (size) : DecidablePred (Registered size) := fun _ =>
  inferInstanceAs (Decidable (_ ∧ _ ∧ _ ∧ _))

/-- The virtual address of a file of class 32. -/
def Class32 (s : ElfSegment) : Prop := s.virtualAddress < 2 ^ 32

end ElfSegment

/-- The byte at `x` after the segments have been loaded: that of the last segment that has one. -/
def imageAt (segments : List ElfSegment) (x : Nat) (old : Option Byte) : Option Byte :=
  match (segments.filter (·.Covers x)).getLast? with
  | some s => some (s.byteAt x)
  | none => old

/-- Loading the segments takes `m` to `m'`. -/
structure LoadsTo (segments : List ElfSegment) (m m' : TIMemory) : Prop where
  bytes : ∀ x, m'.bytes[x]? = imageAt segments x m.bytes[x]?
  size : m'.size = m.size
  regions : m'.executableRegions =
    m.executableRegions ++ (segments.filter (·.Executable)).map ElfSegment.region
  dirty : m'.dirtyCodeRanges = m.dirtyCodeRanges

/-- Without segments the old byte stays. -/
@[simp] lemma imageAt_nil (x old) : imageAt [] x old = old := rfl

/-- The first segment is loaded first. -/
lemma imageAt_cons (s segments x old) :
    imageAt (s :: segments) x old =
      imageAt segments x (if s.Covers x then some (s.byteAt x) else old) := by
  unfold imageAt
  by_cases covers : s.Covers x
  · rw [List.filter_cons_of_pos (by simpa using covers), if_pos covers, List.getLast?_cons]
    cases (segments.filter (·.Covers x)).getLast? with
    | none => rfl
    | some s' => rfl
  · rw [List.filter_cons_of_neg (by simpa using covers), if_neg covers]

/-- Loading no segments. -/
lemma LoadsTo.refl (m : TIMemory) : LoadsTo [] m m :=
  ⟨fun _ => rfl, rfl, (List.append_nil _).symm, rfl⟩

/-- One segment, then the others. -/
lemma LoadsTo.cons {s segments m m1 m'} (first : LoadsTo [s] m m1)
    (rest : LoadsTo segments m1 m') : LoadsTo (s :: segments) m m' where
  bytes x := by rw [rest.bytes, first.bytes, imageAt_cons s [], imageAt_nil, ← imageAt_cons]
  size := rest.size.trans first.size
  regions := by
    rw [rest.regions, first.regions, List.append_assoc, ← List.map_append, ← List.filter_append]
    rfl
  dirty := rest.dirty.trans first.dirty

/-- A segment that is not loaded changes nothing. -/
lemma LoadsTo.skip {s : ElfSegment} (m) (h : s.type ≠ ElfFile.ptLoad) : LoadsTo [s] m m where
  bytes x := by rw [imageAt_cons, if_neg fun covers => h covers.1, imageAt_nil]
  size := rfl
  regions := by
    rw [List.filter_cons_of_neg (by simpa using fun code : s.Executable => h code.1)]
    exact (List.append_nil _).symm
  dirty := rfl

section

variable {s : ElfSegment} {m : TIMemory}

/-- The address of a segment of class 32 is not cut. -/
lemma toNat_address (h : s.Class32) : s.address.toNat = s.virtualAddress := by
  unfold ElfSegment.address
  rw [BitVec.toNat_ofNat]
  exact Nat.mod_eq_of_lt h

/-- The bytes of a segment in memory. -/
def ElfSegment.image (s : ElfSegment) : List Byte :=
  s.data ++ List.replicate (s.memorySize - s.fileSize) 0

/-- The image of a segment fills its memory. -/
lemma length_image (h : s.fileSize ≤ s.memorySize) : s.image.length = s.memorySize := by
  unfold ElfSegment.image
  rw [List.length_append, List.length_replicate]
  exact Nat.add_sub_cancel' h

/-- A byte of the image is a byte of the file, or zero. -/
lemma getElem?_image (h : s.fileSize ≤ s.memorySize) {j} (hj : j < s.memorySize) :
    s.image[j]? = some (s.data.getD j 0) := by
  unfold ElfSegment.image
  rw [List.getElem?_append]
  split
  case isTrue inFile =>
    rw [List.getD_eq_getElem?_getD, List.getElem?_eq_getElem inFile]
    rfl
  case isFalse past =>
    have inZeros : j - s.data.length < s.memorySize - s.fileSize := by
      unfold ElfSegment.fileSize at *
      omega
    rw [List.getElem?_replicate, if_pos inZeros, List.getD_eq_getElem?_getD,
      List.getElem?_eq_none (Nat.le_of_not_lt past)]
    rfl

/-- Clearing the rest of the segment, behind the bytes of the file. -/
lemma clearRest (small : s.fileSize ≤ s.memorySize) (hb : m.InBounds s.address s.memorySize) :
    (if s.memorySize > s.fileSize then
        store ⟨s.address.toNat + s.fileSize, s.memorySize - s.fileSize⟩
          (List.replicate (s.memorySize - s.fileSize) 0)
      else pure ()) { m with bytes := Store.splice m.bytes s.address.toNat s.data } =
      .ok () { m with bytes := Store.splice m.bytes s.address.toNat s.image } := by
  have inMemory : s.address.toNat + s.memorySize ≤ m.bytes.length := hb.1
  have total := length_image small
  have file : s.data.length = s.fileSize := rfl
  unfold ElfSegment.image at total ⊢
  by_cases more : s.memorySize > s.fileSize
  · rw [if_pos more]
    have fits : s.address.toNat + s.fileSize + (s.memorySize - s.fileSize) ≤
        size { m with bytes := Store.splice m.bytes s.address.toNat s.data } := by
      unfold size
      rw [Store.length_splice (by omega)]
      omega
    have zeros : (List.replicate (s.memorySize - s.fileSize) (0 : Byte)).length =
        s.memorySize - s.fileSize := List.length_replicate
    generalize List.replicate (s.memorySize - s.fileSize) (0 : Byte) = rest at zeros total ⊢
    -- the zeros lie right behind the bytes of the file
    have joined := @Store.splice_append _ m.bytes s.data rest s.address.toNat (by omega)
    rw [file] at joined
    rw [store_ok (Nat.le_of_eq zeros) fits]
    dsimp only
    rw [joined]
  · rw [if_neg more, Nat.sub_eq_zero_of_le (Nat.le_of_not_gt more), List.replicate_zero,
      List.append_nil, EState.pure_apply]

/-- Loading one segment in closed form. -/
lemma loadSegment_eq (s : ElfSegment) (m : TIMemory) :
    loadSegment s m =
      if s.fileSize > s.memorySize then
        .error (loaderError "ELF segment file size exceeds memory size") m
      else if m.InBounds s.address s.memorySize then
        .ok () { m with bytes := Store.splice m.bytes s.address.toNat s.image }
      else .error (outOfBounds s.address) m := by
  unfold loadSegment
  by_cases big : s.fileSize > s.memorySize
  · rw [if_pos big, if_pos big]
    rfl
  · rw [if_neg big, if_neg big]
    have small := Nat.le_of_not_gt big
    have address : BitVec.ofNat 32 s.virtualAddress = s.address := rfl
    dsimp only
    rw [EState.bind_apply, EState.get_apply]
    dsimp only
    rw [EState.bind_apply, address, writableRange_eq]
    by_cases hb : m.InBounds s.address s.memorySize
    · rw [if_pos hb, if_pos hb, check_ok]
      dsimp only
      have file : s.data.length = s.fileSize := rfl
      -- without bytes in the file the source skips the copy
      by_cases empty : s.fileSize = 0
      · have none : s.data = [] := List.eq_nil_of_length_eq_zero empty
        have rest := clearRest small hb
        rw [none, Store.splice_nil] at rest
        rw [if_neg (not_not.mpr empty)]
        exact rest
      · have fits : s.address.toNat + s.memorySize ≤ m.size := hb.1
        have stored : store ⟨s.address.toNat, s.memorySize⟩ s.data m =
            .ok () { m with bytes := Store.splice m.bytes s.address.toNat s.data } :=
          store_ok small fits
        rw [if_pos empty, EState.bind_apply, stored]
        exact clearRest small hb
    · rw [if_neg hb, if_neg hb, check_error]

/-- Loading one segment, once it is accepted, after its region has been registered. -/
lemma loadSegment_ok (short : s.Class32) (load : s.type = ElfFile.ptLoad)
    (small : s.fileSize ≤ s.memorySize)
    (fits : s.virtualAddress + s.memorySize ≤ min m.size (2 ^ 32)) :
    ∃ m', loadSegment s m = .ok () m' ∧ m'.size = m.size ∧
      (∀ x, m'.bytes[x]? = imageAt [s] x m.bytes[x]?) ∧
      m'.executableRegions = m.executableRegions ∧ m'.dirtyCodeRanges = m.dirtyCodeRanges := by
  have within : Within m.size s.address s.memorySize := by
    unfold Within
    rw [toNat_address short]
    exact fits
  have hb := (m.inBounds_iff _ _).mpr within
  have length := length_image small
  have room : s.virtualAddress + s.image.length ≤ m.bytes.length := by
    rw [length]
    exact Nat.le_trans fits (Nat.min_le_left _ _)
  refine ⟨{ m with bytes := Store.splice m.bytes s.virtualAddress s.image }, ?_, ?_, ?_, rfl, rfl⟩
  · rw [loadSegment_eq, if_neg (Nat.not_lt.mpr small), if_pos hb, toNat_address short]
  · exact Store.length_splice room
  · intro x
    dsimp only
    rw [Store.getElem?_splice room, imageAt_cons, imageAt_nil, length]
    by_cases covers : s.Covers x
    · rw [if_pos covers, if_pos covers.2, getElem?_image small (by have := covers.2; omega)]
      rfl
    · rw [if_neg covers, if_neg fun inside => covers ⟨load, inside⟩]

/-! The branches of the loop. -/

section

variable {segments : List ElfSegment} {found : Bool}

/-- Other segments than `PT_LOAD` are skipped. -/
lemma loadSegments_skip (skip : s.type ≠ ElfFile.ptLoad) :
    loadSegments (s :: segments) found m = loadSegments segments found m := by
  rw [loadSegments, if_pos skip]

/-- A segment of data is loaded without a region. -/
lemma loadSegments_data (load : s.type = ElfFile.ptLoad) (data : ¬ s.Executable) :
    loadSegments (s :: segments) found m =
      (loadSegment s >>= fun _ => loadSegments segments found) m := by
  rw [loadSegments, if_neg (not_not.mpr load), if_neg fun code => data ⟨load, code⟩]

/-- A segment of code at an odd place is refused. -/
lemma loadSegments_misaligned (code : s.Executable)
    (bad : ¬ (s.virtualAddress % 4 = 0 ∧ s.memorySize % 4 = 0)) :
    loadSegments (s :: segments) found m =
      .error (loaderError "Executable ELF segment is not instruction-aligned") m := by
  have bad' : s.memorySize % TI32.instructionSize.toNat ≠ 0 ∨
      s.virtualAddress % TI32.instructionSize.toNat ≠ 0 := by
    have four : TI32.instructionSize.toNat = 4 := rfl
    rw [four]
    omega
  rw [loadSegments, if_neg (not_not.mpr code.1), if_pos code.2]
  dsimp only
  rw [if_pos bad', EState.bind_apply, EState.throw_apply]

/-- A segment of code is registered, and then loaded. -/
lemma loadSegments_code (code : s.Executable)
    (aligned : s.virtualAddress % 4 = 0 ∧ s.memorySize % 4 = 0) :
    loadSegments (s :: segments) found m =
      (addExecutableRegion s.address s.memorySize >>= fun _ => loadSegment s >>= fun _ =>
        loadSegments segments true) m := by
  have good : ¬ (s.memorySize % TI32.instructionSize.toNat ≠ 0 ∨
      s.virtualAddress % TI32.instructionSize.toNat ≠ 0) := by
    have four : TI32.instructionSize.toNat = 4 := rfl
    rw [four]
    omega
  rw [loadSegments, if_neg (not_not.mpr code.1), if_pos code.2]
  dsimp only
  rw [if_neg good]
  rfl

/-- An accepted segment is loaded, and the loop goes on with the others. -/
lemma loadSegments_step (short : s.Class32) (accepted : s.Accepted m.size) :
    ∃ m1, LoadsTo [s] m m1 ∧
      loadSegments (s :: segments) found m =
        loadSegments segments (found || decide s.Executable) m1 := by
  by_cases load : s.type = ElfFile.ptLoad
  case neg =>
    have data : ¬ s.Executable := fun code => load code.1
    refine ⟨m, .skip m load, ?_⟩
    rw [loadSegments_skip load, decide_eq_false data, Bool.or_false]
  case pos =>
    obtain ⟨small, fits, aligned⟩ := accepted load
    by_cases code : s.Executable
    · have within : Within m.size s.address s.memorySize := by
        unfold Within
        rw [toNat_address short]
        exact fits
      obtain ⟨m1, registered, bytes, dirty, regions⟩ :=
        addExecutableRegion_ok ((m.inBounds_iff _ _).mpr within)
      -- registering the region leaves the bytes and the size alone
      have size : m1.size = m.size := congrArg List.length bytes
      rw [← size] at fits
      obtain ⟨m2, loaded, size2, bytes2, regions2, dirty2⟩ := loadSegment_ok short load small fits
      refine ⟨m2, ⟨fun x => ?_, size2.trans size, ?_, dirty2.trans dirty⟩, ?_⟩
      · rw [bytes2, bytes]
      · rw [regions2, regions, List.filter_cons_of_pos (by simpa using code)]
        rfl
      · rw [loadSegments_code code (aligned code), EState.bind_apply, registered]
        dsimp only
        rw [EState.bind_apply, loaded, decide_eq_true code, Bool.or_true]
    · obtain ⟨m2, loaded, size2, bytes2, regions2, dirty2⟩ := loadSegment_ok short load small fits
      refine ⟨m2, ⟨bytes2, size2, ?_, dirty2⟩, ?_⟩
      · rw [regions2, List.filter_cons_of_neg (by simpa using code)]
        exact (List.append_nil _).symm
      · rw [loadSegments_data load code, EState.bind_apply, loaded, decide_eq_false code,
          Bool.or_false]

/-- A segment that is not accepted may be registered as code, but it is not loaded. -/
structure Refuses (s : ElfSegment) (m m' : TIMemory) : Prop where
  bytes : m'.bytes = m.bytes
  regions : m'.executableRegions =
    m.executableRegions ++ if s.Registered m.size then [s.region] else []
  dirty : m'.dirtyCodeRanges = m.dirtyCodeRanges

/-- A segment that is refused before its region is registered. -/
lemma Refuses.unregistered (h : ¬ s.Registered m.size) : Refuses s m m where
  bytes := rfl
  regions := by rw [if_neg h, List.append_nil]
  dirty := rfl

/-- The segment itself cannot be loaded. -/
lemma loadSegment_error (short : s.Class32)
    (bad : ¬ (s.fileSize ≤ s.memorySize ∧ s.virtualAddress + s.memorySize ≤ min m.size (2 ^ 32))) :
    ∃ e, e.IsSimulation ∧ loadSegment s m = .error e m := by
  rw [loadSegment_eq]
  by_cases small : s.fileSize ≤ s.memorySize
  · have out : ¬ m.InBounds s.address s.memorySize := by
      intro hb
      have within := (m.inBounds_iff _ _).mp hb
      unfold Within at within
      rw [toNat_address short] at within
      exact bad ⟨small, within⟩
    rw [if_neg (Nat.not_lt.mpr small), if_neg out]
    exact ⟨outOfBounds s.address, trivial, rfl⟩
  · rw [if_pos (Nat.lt_of_not_le small)]
    exact ⟨loaderError _, trivial, rfl⟩

/-- The loop fails at a segment that is not accepted. -/
lemma loadSegments_refuse (short : s.Class32) (refused : ¬ s.Accepted m.size) :
    ∃ e m', e.IsSimulation ∧ Refuses s m m' ∧
      loadSegments (s :: segments) found m = .error e m' := by
  have load : s.type = ElfFile.ptLoad := by
    by_contra skip
    exact refused fun load => absurd load skip
  by_cases code : s.Executable
  · by_cases aligned : s.virtualAddress % 4 = 0 ∧ s.memorySize % 4 = 0
    · have bad : ¬ (s.fileSize ≤ s.memorySize ∧
          s.virtualAddress + s.memorySize ≤ min m.size (2 ^ 32)) :=
        fun fine => refused fun _ => ⟨fine.1, fine.2, fun _ => aligned⟩
      have inBounds : m.InBounds s.address s.memorySize ↔
          s.virtualAddress + s.memorySize ≤ min m.size (2 ^ 32) := by
        rw [TIMemory.inBounds_iff, Within, toNat_address short]
      rw [loadSegments_code code aligned, EState.bind_apply]
      by_cases hb : m.InBounds s.address s.memorySize
      · obtain ⟨m1, registered, bytes, dirty, regions⟩ := addExecutableRegion_ok hb
        -- the region is registered before the segment turns out not to fit
        have size : m1.size = m.size := congrArg List.length bytes
        rw [← size] at bad
        obtain ⟨e, simulation, failed⟩ := loadSegment_error short bad
        have isRegistered : s.Registered m.size :=
          ⟨code, aligned.1, aligned.2, inBounds.mp hb⟩
        refine ⟨e, m1, simulation, ⟨bytes, ?_, dirty⟩, ?_⟩
        · rw [if_pos isRegistered]
          exact regions
        rw [registered]
        dsimp only
        rw [EState.bind_apply, failed]
      · rw [addExecutableRegion_error hb]
        exact ⟨outOfBounds s.address, m, trivial,
          .unregistered fun h => hb (inBounds.mpr h.2.2.2), rfl⟩
    · rw [loadSegments_misaligned code aligned]
      exact ⟨loaderError _, m, trivial,
        .unregistered fun h => aligned ⟨h.2.1, h.2.2.1⟩, rfl⟩
  · have bad : ¬ (s.fileSize ≤ s.memorySize ∧
        s.virtualAddress + s.memorySize ≤ min m.size (2 ^ 32)) :=
      fun fine => refused fun _ => ⟨fine.1, fine.2, fun isCode => absurd isCode code⟩
    obtain ⟨e, simulation, failed⟩ := loadSegment_error short bad
    rw [loadSegments_data load code, EState.bind_apply, failed]
    exact ⟨e, m, simulation, .unregistered fun h => code h.1, rfl⟩

end

end

/-- How the loop ends: with all segments loaded, or at the first one that is not accepted. -/
inductive LoopEnds (segments : List ElfSegment) (found : Bool) (m : TIMemory) :
    EStateM.Result Failure TIMemory Bool → Prop where
  | loaded {m'} :
    (∀ s ∈ segments, s.Accepted m.size) →
    LoadsTo segments m m' →
    LoopEnds segments found m (.ok (found || segments.any (decide ·.Executable)) m')
  | refused {good bad rest e m1 m'} :
    segments = good ++ bad :: rest →
    (∀ s ∈ good, s.Accepted m.size) →
    ¬ bad.Accepted m.size →
    LoadsTo good m m1 →
    Refuses bad m1 m' →
    e.IsSimulation →
    LoopEnds segments found m (.error e m')

/-- The loop over the segments. -/
theorem loadSegments_cases {segments found m} (short : ∀ s ∈ segments, s.Class32) :
    LoopEnds segments found m (loadSegments segments found m) := by
  -- on the segments: the size of memory, which decides what is accepted, never changes
  induction segments generalizing found m with
  | nil =>
    rw [loadSegments, EState.pure_apply]
    have ends := @LoopEnds.loaded [] found m m (by simp) (.refl m)
    rwa [List.any_nil, Bool.or_false] at ends
  | cons s segments ih =>
    have first := short s List.mem_cons_self
    by_cases accepted : s.Accepted m.size
    · obtain ⟨m1, loads, step⟩ := @loadSegments_step s m segments found first accepted
      have sized : ∀ {s' : ElfSegment}, s'.Accepted m1.size ↔ s'.Accepted m.size := by
        rw [loads.size]
      rw [step]
      have ends := @ih (found || decide s.Executable) m1 fun s' mem =>
        short s' (List.mem_cons_of_mem _ mem)
      generalize loadSegments segments (found || decide s.Executable) m1 = r at ends ⊢
      cases ends with
      | loaded all others =>
        rw [Bool.or_assoc]
        refine .loaded (fun s' mem => ?_) (.cons loads others)
        obtain rfl | mem := List.mem_cons.mp mem
        · exact accepted
        · exact sized.mp (all s' mem)
      | @refused good bad rest e m2 m' split all refused others refuses simulation =>
        subst split
        refine @LoopEnds.refused _ _ _ (s :: good) bad rest e m2 m' rfl (fun s' mem => ?_)
          (mt sized.mpr refused) (.cons loads others) refuses simulation
        obtain rfl | mem := List.mem_cons.mp mem
        · exact accepted
        · exact sized.mp (all s' mem)
    · obtain ⟨e, m', simulation, refuses, failed⟩ := loadSegments_refuse first accepted
      rw [failed]
      exact @LoopEnds.refused _ _ _ [] s segments e m m' rfl (by simp) accepted (.refl m) refuses
        simulation

end ToyIsa
