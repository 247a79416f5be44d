import ToyIsa.Cache.Consistent

/-!
# Looking up a block

`getBlock_cases` says what `getBlock` returns: a valid block that is stored, or a new block decoded
from memory in the place of an invalid one or of none. Two caches with the same `view` give the same
blocks, whatever they have compiled and counted.
-/

namespace ToyIsa

open TIBasicBlockCache

/-- The cache without the block under `a`, which `getBlock` destroys before it decodes. -/
def TIBasicBlockCache.dropped (cache : TIBasicBlockCache) (a : Word) : TIBasicBlockCache :=
  match cache.blocks a with
  | some block => cache.erase a block
  | none => cache

/-- No valid block is stored under `a`. -/
def NoValid (cache : TIBasicBlockCache) (a : Word) : Prop :=
  ∀ b, cache.blocks a = some b → b.valid = false

/-- What `getBlock` can return. -/
inductive Fetch (cache : TIBasicBlockCache) (a : Word) (memory : TIMemory) :
    Option (EStateM.Result Failure TIBasicBlockCache TIBasicBlock) → Prop where
  | hit {b} :
    cache.blocks a = some b →
    b.valid = true →
    Fetch cache a memory (some (.ok b cache))
  | diverges :
    NoValid cache a →
    decodeLoop memory addressSpaceWords a = none →
    Fetch cache a memory none
  | fault {e} :
    NoValid cache a →
    memory.read32 a = .error e →
    Fetch cache a memory (some (.error e (cache.dropped a)))
  | decoded {is} :
    NoValid cache a →
    Decodes memory a is →
    is.length ≤ addressSpaceWords →
    Fetch cache a memory
      (some (.ok { startAddress := a, instructions := is.map Instr.toTI }
        ((cache.dropped a).insertBlock a (is.map Instr.toTI))))

variable {cache : TIBasicBlockCache} {a : Word} {memory : TIMemory}

/-- The block that was dropped is gone. -/
@[simp] lemma dropped_blocks_self : (cache.dropped a).blocks a = none := by
  unfold dropped
  split
  · simp [erase]
  · assumption

/-- The other blocks stay. -/
lemma dropped_blocks_of_ne {a'} (ne : a' ≠ a) : (cache.dropped a).blocks a' = cache.blocks a' := by
  unfold dropped
  split
  · simp [erase, Function.update_of_ne ne]
  · rfl

/-- A block that is left after a drop is not the one that was dropped. -/
lemma of_dropped {a' b} (h : (cache.dropped a).blocks a' = some b) :
    a' ≠ a ∧ cache.blocks a' = some b := by
  by_cases ne : a' = a
  · subst ne
    cases dropped_blocks_self.symm.trans h
  · exact ⟨ne, (dropped_blocks_of_ne ne).symm.trans h⟩

/-- The slots stay. -/
@[simp] lemma dropped_jitEntries : (cache.dropped a).jitEntries = cache.jitEntries := by
  unfold dropped
  split <;> rfl

/-- A valid block is returned as it is. -/
lemma getBlock_of_valid {b} (hb : cache.blocks a = some b) (hv : b.valid = true) :
    cache.getBlock a memory = some (.ok b cache) := by
  unfold getBlock
  simp only [hb, hv, if_true]

/-- Where no valid block is stored, `getBlock` decodes. -/
lemma getBlock_of_noValid (nv : NoValid cache a) :
    cache.getBlock a memory =
      match decodeLoop memory addressSpaceWords a with
      | none => none
      | some (.error e) => some (.error e (cache.dropped a))
      | some (.ok l) =>
        some (.ok { startAddress := a, instructions := l }
          ((cache.dropped a).insertBlock a l)) := by
  have missing : cache.getBlock a memory = (cache.dropped a).decodeBlock a memory := by
    unfold getBlock dropped
    cases h : cache.blocks a with
    | none => rfl
    | some b => simp only [nv b h, if_neg Bool.false_ne_true]
  rw [missing, decodeBlock]
  cases decodeLoop memory addressSpaceWords a with
  | none => rfl
  | some r =>
    cases r with
    | error e => rfl
    | ok l =>
      simp only [dropped_blocks_self]
      rfl

/-- A valid block is stored or not. -/
lemma valid_or_noValid (cache : TIBasicBlockCache) (a) :
    (∃ b, cache.blocks a = some b ∧ b.valid = true) ∨ NoValid cache a := by
  by_cases h : ∃ b, cache.blocks a = some b ∧ b.valid = true
  · exact .inl h
  · exact .inr fun b hb => Bool.eq_false_iff.mpr fun hv => h ⟨b, hb, hv⟩

/-- What `getBlock` returns. -/
theorem getBlock_cases (cache : TIBasicBlockCache) (a memory) :
    Fetch cache a memory (cache.getBlock a memory) := by
  obtain ⟨b, hb, hv⟩ | nv := valid_or_noValid cache a
  · rw [getBlock_of_valid hb hv]
    exact .hit hb hv
  · rw [getBlock_of_noValid nv]
    cases h : decodeLoop memory addressSpaceWords a with
    | none => exact .diverges nv h
    | some r =>
      cases r with
      | error e => exact .fault nv (decodeLoop_error h)
      | ok l =>
        obtain ⟨is, his, hlen, rfl⟩ := decodeLoop_ok_iff.mp h
        exact .decoded nv his hlen

/-- Dropping an invalid block. -/
lemma Consistent.dropped (h : Consistent cache) (nv : NoValid cache a) :
    Consistent (cache.dropped a) := by
  unfold TIBasicBlockCache.dropped
  split
  case h_1 b hb => exact h.erase hb (nv b hb)
  case h_2 => exact h

/-- `getBlock` returns a valid block that is stored. -/
lemma getBlock_stored {b cache'} (e : cache.getBlock a memory = some (.ok b cache')) :
    cache'.blocks a = some b ∧ b.valid = true := by
  have f := getBlock_cases cache a memory
  rw [e] at f
  cases f with
  | hit hb hv => exact ⟨hb, hv⟩
  | decoded => exact ⟨Function.update_self a _ _, rfl⟩

/-- `getBlock` keeps the invariant and returns a valid block that is stored. -/
theorem Consistent.getBlock_ok (h : Consistent cache) {b cache'}
    (e : cache.getBlock a memory = some (.ok b cache')) :
    Consistent cache' ∧ cache'.blocks a = some b ∧ b.valid = true := by
  have stored := getBlock_stored e
  have f := getBlock_cases cache a memory
  rw [e] at f
  cases f with
  | hit => exact ⟨h, stored⟩
  | decoded nv his len =>
    exact ⟨(h.dropped nv).insert dropped_blocks_self his.straight len, stored⟩

/-- A failing `getBlock` keeps the invariant. -/
lemma Consistent.getBlock_error (h : Consistent cache) {e cache'}
    (eq : cache.getBlock a memory = some (.error e cache')) : Consistent cache' := by
  have f := getBlock_cases cache a memory
  rw [eq] at f
  cases f with
  | fault nv _ => exact h.dropped nv

/-! Views. -/

/-- What the interpreting engines see of a cache. -/
def TIBasicBlockCache.view (cache : TIBasicBlockCache) (a : Word) :
    Option (Word × List TIInstruction × Bool) :=
  (cache.blocks a).map fun b => (b.startAddress, b.instructions, b.valid)

variable {cache' : TIBasicBlockCache}

/-- A block has a counterpart in a cache with the same view. -/
lemma view_some (h : cache.view = cache'.view) {b} (hb : cache.blocks a = some b) :
    ∃ b', cache'.blocks a = some b' ∧ b'.startAddress = b.startAddress ∧
      b'.instructions = b.instructions ∧ b'.valid = b.valid := by
  have e := congrFun h a
  unfold TIBasicBlockCache.view at e
  rw [hb, Option.map_some] at e
  obtain ⟨b', hb', eq⟩ := Option.map_eq_some_iff.mp e.symm
  simp only [Prod.mk.injEq] at eq
  exact ⟨b', hb', eq.1, eq.2.1, eq.2.2⟩

/-- Two caches with the same blocks have the same view. -/
lemma view_of_blocks (h : cache.blocks = cache'.blocks) : cache.view = cache'.view := by
  unfold TIBasicBlockCache.view
  rw [h]

/-- The view without the block that was dropped. -/
lemma view_dropped : (cache.dropped a).view = Function.update cache.view a none := by
  funext a'
  unfold TIBasicBlockCache.view
  by_cases ne : a' = a
  · subst ne
    simp
  · rw [dropped_blocks_of_ne ne, Function.update_of_ne ne]

/-- The view with a new block. -/
lemma view_insertBlock (l) :
    (cache.insertBlock a l).view = Function.update cache.view a (some (a, l, true)) := by
  funext a'
  unfold TIBasicBlockCache.view insertBlock
  by_cases ne : a' = a
  · subst ne
    simp
  · simp only [Function.update_of_ne ne]

/-- A change that only the JIT sees. -/
lemma view_modifyBlock (k) {f : TIBasicBlock → TIBasicBlock}
    (hf : ∀ b, (f b).startAddress = b.startAddress ∧ (f b).instructions = b.instructions ∧
      (f b).valid = b.valid) : (cache.modifyBlock k f).view = cache.view := by
  funext a
  unfold TIBasicBlockCache.view modifyBlock
  by_cases ne : a = k
  · subst ne
    simp only [Function.update_self, Option.map_map]
    congr 1
    funext b
    simp only [Function.comp_apply, hf b]
  · simp only [Function.update_of_ne ne]

/-- Invalidation sees the view only. -/
lemma view_invalidateRange (address n) :
    (cache.invalidateRange address n).view = fun a =>
      (cache.view a).map fun (start, l, valid) =>
        (start, l, valid &&
          !touches { startAddress := start, instructions := l } address n) := by
  funext a
  unfold TIBasicBlockCache.view invalidateRange
  cases h : cache.blocks a with
  | none => simp [h]
  | some b =>
    have ht : touches { startAddress := b.startAddress, instructions := b.instructions } address n =
        touches b address n := rfl
    cases hit : touches b address n <;>
    simp [h, hit, ht, TIBasicBlock.invalidate]

/-- Whether a valid block is stored shows in the view. -/
lemma view_noValid (h : cache.view = cache'.view) (nv : NoValid cache a) : NoValid cache' a := by
  intro b' hb'
  obtain ⟨b, hb, _, _, valid⟩ := view_some h.symm hb'
  rw [← valid]
  exact nv b hb

/-- `getBlock` sees the view only. -/
theorem view_getBlock (h : cache.view = cache'.view) (a memory) :
    (cache.getBlock a memory = none ∧ cache'.getBlock a memory = none) ∨
    (∃ e d d', cache.getBlock a memory = some (.error e d) ∧
      cache'.getBlock a memory = some (.error e d') ∧ d.view = d'.view) ∨
    (∃ b b' d d', cache.getBlock a memory = some (.ok b d) ∧
      cache'.getBlock a memory = some (.ok b' d') ∧ d.view = d'.view ∧
      b'.instructions = b.instructions) := by
  obtain ⟨b, hb, hv⟩ | nv := valid_or_noValid cache a
  · obtain ⟨b', hb', _, instructions, valid⟩ := view_some h hb
    exact .inr (.inr ⟨b, b', cache, cache', getBlock_of_valid hb hv,
      getBlock_of_valid hb' (valid.trans hv), h, instructions⟩)
  · have dropped : (cache.dropped a).view = (cache'.dropped a).view := by
      rw [view_dropped, view_dropped, h]
    rw [getBlock_of_noValid nv, getBlock_of_noValid (view_noValid h nv)]
    cases decodeLoop memory addressSpaceWords a with
    | none => exact .inl ⟨rfl, rfl⟩
    | some r =>
      cases r with
      | error e => exact .inr (.inl ⟨e, _, _, rfl, rfl, dropped⟩)
      | ok l =>
        refine .inr (.inr ⟨_, _, _, _, rfl, rfl, ?_, rfl⟩)
        rw [view_insertBlock, view_insertBlock, dropped]

end ToyIsa
