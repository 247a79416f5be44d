import ToyIsa.Memory.Ops

/-!
# The law of the word memory

What a client sees of a memory over any sequence of operations. `next_size`, `next_slice`,
`regionsAfter_next` and `next_dirty` say what one operation does; `memoryAfter_*` carry this over a
sequence, and `word_memory_law` collects what they say about reads, stores and takes.
-/

namespace ToyIsa

open TIMemory

/-- The memory after an operation, whether it succeeds or throws. -/
def MemoryOp.next (op : MemoryOp) (m : TIMemory) : TIMemory := resultMemory (op.apply m)

/-- The memory after a sequence of operations. -/
def memoryAfter (m : TIMemory) (ops : List MemoryOp) : TIMemory :=
  ops.foldl (fun m op => op.next m) m

/-- The operation writes a byte of the word at `a`. -/
def MemoryOp.Touches (size : Nat) (a : Word) : MemoryOp → Prop
  | .write32 address value => Succeeds size (.write32 address value) ∧ address = a
  | .writeBytes address byteCount offset data inRange =>
    Succeeds size (.writeBytes address byteCount offset data inRange) ∧
      Shares a.toNat 4 (address.toNat + offset) data.length
  | _ => False

/-- The operation registers a region that shares a byte with the word at `a`. -/
def MemoryOp.Registers (size : Nat) (a : Word) : MemoryOp → Prop
  | .addExecutableRegion address byteCount _ =>
    Within size address byteCount ∧ Shares a.toNat 4 address.toNat byteCount
  | _ => False

instance (size a) : DecidablePred (MemoryOp.Registers size a)
  | .addExecutableRegion .. => instDecidableAnd
  | .write32 .. => .isFalse id
  | .writeBytes .. => .isFalse id
  | .takeDirtyCodeRanges => .isFalse id

/-- What an operation adds to the pending ranges, after the operations `before`: a store does if it
succeeds and its word shares a byte with a region registered by then. -/
def MemoryOp.logs (size : Nat) (before : List MemoryOp) : MemoryOp → List TICodeRange
  | .write32 address value =>
    if Succeeds size (.write32 address value) ∧
        ∃ earlier ∈ before, earlier.Registers size address then [⟨address, 4⟩]
    else []
  | _ => []

/-- What a sequence of operations adds to the pending ranges, in order. -/
def codeStores (size : Nat) : List MemoryOp → List MemoryOp → List TICodeRange
  | _, [] => []
  | before, op :: ops => op.logs size before ++ codeStores size (before ++ [op]) ops

/-- The regions of the memory are those that `before` registered. -/
def Registered (m : TIMemory) (before : List MemoryOp) : Prop :=
  ∀ a : Word, m.executableRegions.any (·.overlaps a 4) = true ↔
    ∃ earlier ∈ before, earlier.Registers m.size a

namespace MemoryOp

variable {op : MemoryOp} {m : TIMemory}

/-- An operation keeps the size. -/
@[simp] lemma next_size : (op.next m).size = m.size := by
  unfold next
  by_cases h : Succeeds m.size op
  · cases op with
    | addExecutableRegion address byteCount nonempty =>
      obtain ⟨m', e, bytes, _⟩ := apply_addExecutableRegion h nonempty
      rw [e]
      exact congrArg List.length bytes
    | write32 address value =>
      rw [apply_write32 h]
      exact size_written ((m.inBounds_iff _ _).mpr h.2)
    | writeBytes address byteCount offset data inRange =>
      rw [apply_writeBytes h]
      have fits : address.toNat + offset + data.length ≤ m.bytes.length := by
        have := ((m.inBounds_iff _ _).mpr h).1
        unfold size at this
        omega
      exact Store.length_splice fits
    | takeDirtyCodeRanges => rfl
  · obtain ⟨e, he⟩ := apply_of_not_succeeds h
    rw [he]
    rfl

/-- An operation that does not touch a word keeps its bytes. -/
lemma next_slice {a : Word} (aligned : a.toNat % 4 = 0) (h : ¬ op.Touches m.size a) :
    Store.slice (op.next m).bytes a.toNat 4 = Store.slice m.bytes a.toNat 4 := by
  unfold next
  by_cases ok : Succeeds m.size op
  · cases op with
    | addExecutableRegion address byteCount nonempty =>
      obtain ⟨m', e, bytes, _⟩ := apply_addExecutableRegion ok nonempty
      rw [e, ← bytes]
      rfl
    | write32 address value =>
      have ne : address.toNat ≠ a.toNat := fun e => h ⟨ok, BitVec.eq_of_toNat_eq e⟩
      have := ok.1
      rw [apply_write32 ok, resultMemory, written_bytes]
      apply Store.slice_splice_disjoint ((m.inBounds_iff _ _).mpr ok.2).1
      change _ ∨ address.toNat + 4 ≤ _
      omega
    | writeBytes address byteCount offset data inRange =>
      have fits : address.toNat + offset + data.length ≤ m.bytes.length := by
        have := ((m.inBounds_iff _ _).mpr ok).1
        unfold size at this
        omega
      rw [apply_writeBytes ok, resultMemory]
      -- an empty write touches no word, wherever it is
      by_cases empty : data.length = 0
      · apply Store.slice_congr
        intro j _ _
        exact Store.getElem?_splice_of_not_mem fits (by omega)
      · apply Store.slice_splice_disjoint fits
        have apart : ¬ Shares a.toNat 4 (address.toNat + offset) data.length := fun s => h ⟨ok, s⟩
        rw [shares_iff (by omega) (by omega)] at apart
        omega
    | takeDirtyCodeRanges => rfl
  · obtain ⟨e, he⟩ := apply_of_not_succeeds ok
    rw [he]
    rfl

/-- Only a registration that succeeds changes the regions. -/
lemma next_regions (h : ∀ address byteCount nonempty,
    op = .addExecutableRegion address byteCount nonempty → ¬ Succeeds m.size op) :
    (op.next m).executableRegions = m.executableRegions := by
  unfold next
  by_cases ok : Succeeds m.size op
  · cases op with
    | addExecutableRegion address byteCount nonempty => exact absurd ok (h _ _ _ rfl)
    | write32 address value => rw [apply_write32 ok, resultMemory, written_executableRegions]
    | writeBytes address byteCount offset data inRange => rw [apply_writeBytes ok]; rfl
    | takeDirtyCodeRanges => rfl
  · obtain ⟨e, he⟩ := apply_of_not_succeeds ok
    rw [he]
    rfl

variable (op) in
/-- The regions follow the registrations. -/
lemma next_registered {before} (h : Registered m before) :
    Registered (op.next m) (before ++ [op]) := by
  intro a
  rw [next_size]
  have split : (∃ earlier ∈ before ++ [op], earlier.Registers m.size a) ↔
      (∃ earlier ∈ before, earlier.Registers m.size a) ∨ op.Registers m.size a := by
    simp only [List.mem_append, List.mem_singleton, or_and_right, exists_or, exists_eq_left]
  rw [split, ← h a]
  by_cases registers : ∃ address byteCount nonempty,
      op = .addExecutableRegion address byteCount nonempty ∧ Succeeds m.size op
  · obtain ⟨address, byteCount, nonempty, rfl, ok⟩ := registers
    obtain ⟨m', e, _, _, regions⟩ := apply_addExecutableRegion ok nonempty
    have inSpace : address.toNat + byteCount ≤ 2 ^ 32 := Nat.le_trans ok (Nat.min_le_right _ _)
    rw [next, e, resultMemory, regions, List.any_append, Bool.or_eq_true, List.any_cons,
      List.any_nil, Bool.or_false]
    have overlaps := @overlaps_iff ⟨address, byteCount⟩ a inSpace nonempty
    rw [overlaps]
    exact or_congr_right ⟨fun s => ⟨ok, s⟩, fun s => s.2⟩
  -- a registration that fails registers nothing
  · have not : ¬ op.Registers m.size a := by
      intro r
      cases op with
      | addExecutableRegion address byteCount nonempty =>
        exact registers ⟨_, _, _, rfl, r.1⟩
      | _ => exact r
    rw [next_regions fun address byteCount nonempty e ok => registers ⟨_, _, _, e, ok⟩]
    exact (or_iff_left not).symm

/-- What an operation other than a take does to the pending ranges. -/
lemma next_dirty {before} (h : Registered m before) (keeps : op ≠ .takeDirtyCodeRanges) :
    (op.next m).dirtyCodeRanges = m.dirtyCodeRanges ++ op.logs m.size before := by
  unfold next
  by_cases ok : Succeeds m.size op
  · cases op with
    | addExecutableRegion address byteCount nonempty =>
      obtain ⟨m', e, _, dirty, _⟩ := apply_addExecutableRegion ok nonempty
      rw [e, resultMemory, dirty]
      exact (List.append_nil _).symm
    | write32 address value =>
      rw [apply_write32 ok, resultMemory, written_dirtyCodeRanges, logs]
      congr 1
      -- the regions are those registered so far
      have code := h address
      exact if_congr (code.trans ⟨fun hit => ⟨ok, hit⟩, fun both => both.2⟩) rfl rfl
    | writeBytes address byteCount offset data inRange =>
      rw [apply_writeBytes ok]
      exact (List.append_nil _).symm
    | takeDirtyCodeRanges => exact absurd rfl keeps
  · obtain ⟨e, he⟩ := apply_of_not_succeeds ok
    rw [he]
    cases op with
    | write32 address value =>
      rw [logs, if_neg fun both => ok both.1, List.append_nil]
      rfl
    | _ => exact (List.append_nil _).symm

end MemoryOp

section

variable {m : TIMemory} {ops before : List MemoryOp}

/-- Operations after operations. -/
lemma memoryAfter_append (more) :
    memoryAfter m (ops ++ more) = memoryAfter (memoryAfter m ops) more :=
  List.foldl_append

/-- Operations keep the size. -/
@[simp] lemma memoryAfter_size : (memoryAfter m ops).size = m.size := by
  induction ops generalizing m with
  | nil => rfl
  | cons op ops ih => exact ih.trans MemoryOp.next_size

/-- Operations that do not touch a word keep its bytes. -/
lemma memoryAfter_slice {a : Word} (aligned : a.toNat % 4 = 0)
    (h : ∀ op ∈ ops, ¬ op.Touches m.size a) :
    Store.slice (memoryAfter m ops).bytes a.toNat 4 = Store.slice m.bytes a.toNat 4 := by
  induction ops generalizing m with
  | nil => rfl
  | cons op ops ih =>
    have first := MemoryOp.next_slice aligned (h op List.mem_cons_self)
    rw [← first]
    apply ih
    intro op' mem
    rw [MemoryOp.next_size]
    exact h op' (List.mem_cons_of_mem _ mem)

variable (ops) in
/-- The regions are those that were registered. -/
lemma memoryAfter_registered (h : Registered m before) :
    Registered (memoryAfter m ops) (before ++ ops) := by
  induction ops generalizing m before with
  | nil => rwa [List.append_nil]
  | cons op ops ih =>
    have rest := ih (MemoryOp.next_registered op h)
    rwa [List.append_assoc, List.singleton_append] at rest

/-- Without a take the pending ranges grow by the stores to code. -/
lemma memoryAfter_dirty (h : Registered m before) (keeps : .takeDirtyCodeRanges ∉ ops) :
    (memoryAfter m ops).dirtyCodeRanges = m.dirtyCodeRanges ++ codeStores m.size before ops := by
  induction ops generalizing m before with
  | nil => exact (List.append_nil _).symm
  | cons op ops ih =>
    rw [List.mem_cons, not_or] at keeps
    have rest := ih (MemoryOp.next_registered op h) keeps.2
    rw [MemoryOp.next_size, MemoryOp.next_dirty h (Ne.symm keeps.1), List.append_assoc] at rest
    exact rest

/-- A fresh memory has no regions. -/
lemma registered_create (size) : Registered (TIMemory.create size) [] := by
  intro a
  simp [TIMemory.create]

end

/-- The value of a word read. -/
lemma decodeLittleEndianWord_toNat {b0 b1 b2 b3 : Byte} {w : Word}
    (h : decodeLittleEndianWord [b0, b1, b2, b3] = .ok w) :
    w.toNat = b0.toNat + b1.toNat * 2 ^ 8 + b2.toNat * 2 ^ 16 + b3.toNat * 2 ^ 24 := by
  injection h with h
  subst h
  have h0 := b0.isLt
  have h1 := b1.isLt
  have h2 := b2.isLt
  simp only [BitVec.toNat_append]
  rw [← Nat.shiftLeft_add_eq_or_of_lt h2, ← Nat.shiftLeft_add_eq_or_of_lt h1,
    ← Nat.shiftLeft_add_eq_or_of_lt h0]
  simp only [Nat.shiftLeft_eq]
  omega

/-- A read is the little-endian value of four bytes. -/
lemma read32_little_endian {m : TIMemory} {a w} (h : m.read32 a = .ok w) :
    ∃ b0 b1 b2 b3, Store.slice m.bytes a.toNat 4 = [b0, b1, b2, b3] ∧
      w.toNat = b0.toNat + b1.toNat * 2 ^ 8 + b2.toNat * 2 ^ 16 + b3.toNat * 2 ^ 24 := by
  obtain ⟨hb, ha⟩ := (m.read32_isOk_iff a).mp ⟨w, h⟩
  rw [read32_eq, if_pos hb, if_pos ha] at h
  have length : (Store.slice m.bytes a.toNat 4).length = 4 := Store.length_slice hb.1
  obtain ⟨b0, b1, b2, b3, e⟩ := List.length_eq_four.mp length
  refine ⟨b0, b1, b2, b3, e, decodeLittleEndianWord_toNat ?_⟩
  rw [← e]
  exact h

/-- A read depends on the bytes of its word only. -/
lemma read32_congr {m m' : TIMemory} {a} (size : m'.size = m.size)
    (h : Store.slice m'.bytes a.toNat 4 = Store.slice m.bytes a.toNat 4) :
    m'.read32 a = m.read32 a := by
  have hs : Store.slice m'.bytes a.toNat TI32.wordSize =
      Store.slice m.bytes a.toNat TI32.wordSize := h
  have bounds : m'.InBounds a TI32.wordSize ↔ m.InBounds a TI32.wordSize := by
    rw [inBounds_iff, inBounds_iff, size]
  rw [read32_eq, read32_eq, hs]
  exact if_congr bounds rfl rfl

/-- A read of the word just stored. -/
lemma read32_written {m : TIMemory} {a v} (hb : m.InBounds a TI32.wordSize)
    (ha : a.toNat % TI32.wordSize = 0) : (m.written a v).read32 a = .ok v := by
  have fits : a.toNat + (encodeLittleEndianWord v).length ≤ m.bytes.length := hb.1
  rw [read32_eq, if_pos (by unfold InBounds at *; rwa [size_written hb]), if_pos ha, written_bytes,
    ← length_encodeLittleEndianWord v, Store.slice_splice_self fits, decode_encodeLittleEndianWord]

/-- What a client sees of a memory of `size` bytes after a sequence of operations. -/
structure WordMemoryLaw (size : Nat) (ops : List MemoryOp) (m : TIMemory) : Prop where
  /-- Reads succeed within bounds; out of bounds is reported before misalignment. -/
  read_ok : ∀ a : Word, (∃ w, m.read32 a = .ok w) ↔ a.toNat % 4 = 0 ∧ Within size a 4
  read_outOfBounds : ∀ a, ¬ Within size a 4 → m.read32 a = .error (outOfBounds a)
  read_misaligned : ∀ a : Word, Within size a 4 → a.toNat % 4 ≠ 0 →
    m.read32 a = .error (misaligned a)
  /-- So do stores. -/
  write_ok : ∀ a v : Word, (∃ m', write32 a v m = .ok () m') ↔ a.toNat % 4 = 0 ∧ Within size a 4
  write_outOfBounds : ∀ a v, ¬ Within size a 4 → write32 a v m = .error (outOfBounds a) m
  write_misaligned : ∀ a v : Word, Within size a 4 → a.toNat % 4 ≠ 0 →
    write32 a v m = .error (misaligned a) m
  /-- The value of a read is the value of its four bytes. -/
  little_endian : ∀ a w, m.read32 a = .ok w →
    ∃ b0 b1 b2 b3, Store.slice m.bytes a.toNat 4 = [b0, b1, b2, b3] ∧
      w.toNat = b0.toNat + b1.toNat * 2 ^ 8 + b2.toNat * 2 ^ 16 + b3.toNat * 2 ^ 24
  /-- It is the last value stored if nothing has touched the word since. -/
  last_write : ∀ before a v later, ops = before ++ .write32 a v :: later →
    MemoryOp.Succeeds size (.write32 a v) → (∀ op ∈ later, ¬ op.Touches size a) →
    m.read32 a = .ok v
  /-- A store changes no byte outside its word. -/
  write_frame : ∀ (a v : Word) m', write32 a v m = .ok () m' → ∀ x,
    ¬ (a.toNat ≤ x ∧ x < a.toNat + 4) → m'.bytes[x]? = m.bytes[x]?
  /-- An operation succeeds exactly under its condition, and changes nothing when it throws. -/
  op_ok : ∀ op : MemoryOp, (∃ out m', op.apply m = .ok out m') ↔ op.Succeeds size
  op_error : ∀ (op : MemoryOp) e m', op.apply m = .error e m' → m' = m
  /-- A take returns the stores to code since the one before, and leaves none pending. -/
  take : ∀ before since, ops = before ++ since →
    (before = [] ∨ ∃ earlier, before = earlier ++ [.takeDirtyCodeRanges]) →
    .takeDirtyCodeRanges ∉ since →
    m.takeDirtyCodeRanges.1 = codeStores size before since
  take_empties : m.takeDirtyCodeRanges.2.dirtyCodeRanges = []

section

variable {m : TIMemory}

/-- A word is read exactly if it is aligned and in memory. -/
lemma read32_ok_iff (a : Word) :
    (∃ w, m.read32 a = .ok w) ↔ a.toNat % 4 = 0 ∧ Within m.size a 4 := by
  rw [m.read32_isOk_iff a, ← m.inBounds_iff]
  exact and_comm

/-- A word is written exactly if it is aligned and in memory. -/
lemma write32_ok_iff (a v : Word) :
    (∃ m', write32 a v m = .ok () m') ↔ a.toNat % 4 = 0 ∧ Within m.size a 4 := by
  rw [← m.inBounds_iff]
  constructor
  · rintro ⟨m', h⟩
    obtain ⟨hb, ha, _⟩ := write32_ok h
    exact ⟨ha, hb⟩
  · rintro ⟨ha, hb⟩
    refine ⟨m.written a v, ?_⟩
    rw [write32_eq]
    exact (if_pos hb).trans (if_pos ha)

/-- A read sees the last store to its word. -/
lemma read32_last_write {before a v later} (ok : MemoryOp.Succeeds m.size (.write32 a v))
    (untouched : ∀ op ∈ later, ¬ op.Touches m.size a) :
    (memoryAfter m (before ++ .write32 a v :: later)).read32 a = .ok v := by
  rw [memoryAfter_append]
  have size : (memoryAfter m before).size = m.size := memoryAfter_size
  generalize memoryAfter m before = m1 at size
  rw [← size] at ok untouched
  have stored : MemoryOp.next (.write32 a v) m1 = m1.written a v :=
    congrArg resultMemory (MemoryOp.apply_write32 ok)
  have hb := (m1.inBounds_iff _ _).mpr ok.2
  change (memoryAfter (MemoryOp.next (.write32 a v) m1) later).read32 a = _
  rw [stored, ← read32_written hb ok.1]
  refine read32_congr memoryAfter_size (memoryAfter_slice ok.1 ?_)
  rw [size_written hb]
  exact untouched

/-- The pending ranges of a sequence that starts with the memory or after a take. -/
lemma dirty_since {size before since}
    (boundary : before = [] ∨ ∃ earlier, before = earlier ++ [MemoryOp.takeDirtyCodeRanges])
    (keeps : .takeDirtyCodeRanges ∉ since) :
    (memoryAfter (.create size) (before ++ since)).dirtyCodeRanges =
      codeStores size before since := by
  have fresh : (TIMemory.create size).size = size := List.length_replicate
  have none : (memoryAfter (.create size) before).dirtyCodeRanges = [] := by
    obtain rfl | ⟨earlier, rfl⟩ := boundary
    · rfl
    · rw [memoryAfter_append]
      rfl
  have registered := memoryAfter_registered before (registered_create size)
  rw [List.nil_append] at registered
  rw [memoryAfter_append, memoryAfter_dirty registered keeps, none, memoryAfter_size, fresh,
    List.nil_append]

/-- An operation succeeds exactly under its condition. -/
lemma MemoryOp.apply_ok_iff {op : MemoryOp} :
    (∃ out m', op.apply m = .ok out m') ↔ op.Succeeds m.size := by
  refine ⟨fun ⟨out, m', h⟩ => ?_, apply_of_succeeds⟩
  by_contra bad
  obtain ⟨e, he⟩ := apply_of_not_succeeds bad
  rw [h] at he
  cases he

/-- An operation that throws changes nothing. -/
lemma MemoryOp.apply_error {op : MemoryOp} {e m'} (h : op.apply m = .error e m') : m' = m := by
  by_cases ok : op.Succeeds m.size
  · obtain ⟨out, m'', h'⟩ := apply_of_succeeds ok
    rw [h] at h'
    cases h'
  · obtain ⟨e', he⟩ := apply_of_not_succeeds ok
    rw [h] at he
    cases he
    rfl

end

/-- The law holds of every memory after any sequence of operations. -/
theorem word_memory_law (size : Nat) (ops : List MemoryOp) :
    WordMemoryLaw size ops (memoryAfter (.create size) ops) := by
  generalize hm : memoryAfter (.create size) ops = m
  have fresh : (TIMemory.create size).size = size := List.length_replicate
  have same : m.size = size := by rw [← hm, memoryAfter_size, fresh]
  constructor
  case read_ok => rw [← same]; exact read32_ok_iff
  case read_outOfBounds =>
    intro a out
    rw [← same] at out
    rw [read32_eq]
    exact if_neg (mt (m.inBounds_iff _ _).mp out)
  case read_misaligned =>
    intro a within ha
    rw [← same] at within
    rw [read32_eq]
    exact (if_pos ((m.inBounds_iff _ _).mpr within)).trans (if_neg ha)
  case write_ok => rw [← same]; exact write32_ok_iff
  case write_outOfBounds =>
    intro a v out
    rw [← same] at out
    rw [write32_eq]
    exact if_neg (mt (m.inBounds_iff _ _).mp out)
  case write_misaligned =>
    intro a v within ha
    rw [← same] at within
    rw [write32_eq]
    exact (if_pos ((m.inBounds_iff _ _).mpr within)).trans (if_neg ha)
  case little_endian => exact fun a w => read32_little_endian
  case last_write =>
    rintro before a v later rfl ok untouched
    rw [← hm]
    rw [← fresh] at ok untouched
    exact read32_last_write ok untouched
  case write_frame =>
    intro a v m' h x outside
    obtain ⟨hb, _, rfl⟩ := write32_ok h
    rw [written_bytes]
    exact Store.getElem?_splice_of_not_mem hb.1 outside
  case op_ok => rw [← same]; exact fun op => MemoryOp.apply_ok_iff
  case op_error => exact fun op e m' => MemoryOp.apply_error
  case take =>
    rintro before since rfl boundary keeps
    rw [← hm]
    exact dirty_since boundary keeps
  case take_empties => rfl

end ToyIsa
