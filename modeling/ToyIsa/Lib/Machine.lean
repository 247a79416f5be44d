import Mathlib.Logic.Relation

/-!
# Deterministic machines

A machine takes a state to the next state or stops with a result. `Reach` is the states a run
visits and `Halts` how it ends. The rules here are the ones a refinement between two machines
needs: what holds on every visited state (`Reach.invariant`), also of a run whose steps are
restricted (`ReachVia.invariant`), two machines in lockstep (`Lockstep.halts`), a machine each of
whose steps is several steps of another (`Simulates.halts`, `Simulates.halted`,
`Simulates.progress`), and one whose steps may also be none (`Covers.visits`).
-/

namespace Machine

variable {S S' R R' : Type*}

/-- `s` is followed by `t`. -/
def Step (next : S → S ⊕ R) (s t : S) : Prop := next s = .inl t

/-- `t` is visited by the run from `s`. -/
abbrev Reach (next : S → S ⊕ R) : S → S → Prop := Relation.ReflTransGen (Step next)

/-- The run from `s` stops with `r` after `n` steps. -/
inductive HaltsIn (next : S → S ⊕ R) : Nat → S → R → Prop where
  | stop {s r} :
    next s = .inr r →
    HaltsIn next 0 s r
  | step {n s t r} :
    next s = .inl t →
    HaltsIn next n t r →
    HaltsIn next (n + 1) s r

/-- The run from `s` stops with `r`. -/
def Halts (next : S → S ⊕ R) (s : S) (r : R) : Prop := ∃ n, HaltsIn next n s r

variable {next : S → S ⊕ R} {next' : S' → S' ⊕ R'}

/-- A step in front of a halting run. -/
lemma Halts.head {s t r} (e : next s = .inl t) (h : Halts next t r) : Halts next s r := by
  obtain ⟨n, h⟩ := h
  exact ⟨n + 1, .step e h⟩

/-- A machine that stops halts. -/
lemma Halts.stop {s r} (e : next s = .inr r) : Halts next s r := ⟨0, .stop e⟩

/-- A visited state in front of a halting run. -/
lemma Halts.of_reach {s t r} (st : Reach next s t) (h : Halts next t r) : Halts next s r := by
  induction st using Relation.ReflTransGen.head_induction_on with
  | refl => exact h
  | head e _ ih => exact ih.head e

/-- A halting run that takes a step halts after it, one step sooner. -/
lemma HaltsIn.tail {n s t r} (e : next s = .inl t) (h : HaltsIn next n s r) :
    ∃ k, n = k + 1 ∧ HaltsIn next k t r := by
  cases h with
  | stop e' => exact absurd (e.symm.trans e') (by simp)
  | @step k _ t' _ e' h =>
    have et : t = t' := Sum.inl.inj (e.symm.trans e')
    exact ⟨k, rfl, et ▸ h⟩

/-- The result of a run is unique. -/
lemma HaltsIn.unique {n m s r r'} (h : HaltsIn next n s r) (h' : HaltsIn next m s r') :
    r = r' := by
  induction h generalizing m with
  | stop e =>
    cases h' with
    | stop e' => exact Sum.inr.inj (e.symm.trans e')
    | step e' _ => exact absurd (e.symm.trans e') (by simp)
  | step e _ ih =>
    obtain ⟨k, _, h'⟩ := h'.tail e
    exact ih h'

/-- The result of a run is unique. -/
lemma Halts.unique {s r r'} (h : Halts next s r) (h' : Halts next s r') : r = r' := by
  obtain ⟨_, h⟩ := h
  obtain ⟨_, h'⟩ := h'
  exact h.unique h'

/-- A halting run visits the state in which it stops. -/
lemma Halts.last {s r} (h : Halts next s r) : ∃ t, Reach next s t ∧ next t = .inr r := by
  obtain ⟨n, h⟩ := h
  induction h with
  | @stop s r e => exact ⟨s, .refl, e⟩
  | step e _ ih =>
    obtain ⟨t, st, et⟩ := ih
    exact ⟨t, .head e st, et⟩

/-- What holds at the start and is kept by every step holds in every visited state. -/
lemma Reach.invariant {P : S → Prop} (step : ∀ s t, P s → next s = .inl t → P t) {s t}
    (h0 : P s) (st : Reach next s t) : P t := by
  induction st with
  | refl => exact h0
  | tail _ e ih => exact step _ _ ih e

/-- `t` is visited by the run from `s`, and every step so far satisfies `ok`. -/
abbrev ReachVia (next : S → S ⊕ R) (ok : S → S → Prop) : S → S → Prop :=
  Relation.ReflTransGen fun s t => Step next s t ∧ ok s t

/-- What holds at the start and is kept by every step that satisfies `ok`. -/
lemma ReachVia.invariant {ok : S → S → Prop} {P : S → Prop}
    (step : ∀ s t, P s → next s = .inl t → ok s t → P t) {s t} (h0 : P s)
    (st : ReachVia next ok s t) : P t := by
  induction st with
  | refl => exact h0
  | tail _ e ih => exact step _ _ ih e.1 e.2

/-- The state after `n` steps from states that all pass `check`. -/
def runFor (next : S → S ⊕ R) (check : S → Bool) : Nat → S → Option S
  | 0, s => some s
  | n + 1, s =>
    match check s, next s with
    | true, .inl t => runFor next check n t
    | _, _ => none

/-- A concrete run is a run. -/
lemma ReachVia.of_runFor {check : S → Bool} {ok : S → S → Prop}
    (sound : ∀ s t, check s = true → next s = .inl t → ok s t) {n s t}
    (h : runFor next check n s = some t) : ReachVia next ok s t := by
  induction n generalizing s with
  | zero =>
    cases h
    exact .refl
  | succ n ih =>
    unfold runFor at h
    split at h
    case h_1 u passed e => exact .head ⟨e, sound s u passed e⟩ (ih h)
    case h_2 => cases h

/-- A concrete run reaches its last state. -/
lemma Reach.of_runFor {check : S → Bool} {n s t} (h : runFor next check n s = some t) :
    Reach next s t := by
  have run : ReachVia next (fun _ _ => True) s t := .of_runFor (fun _ _ _ _ => trivial) h
  exact Relation.ReflTransGen.mono (fun _ _ e => e.1) s t run

/-- The last step of a concrete run. -/
lemma runFor_succ {check : S → Bool} {n s t} (h : runFor next check (n + 1) s = some t) :
    ∃ u, runFor next check n s = some u ∧ next u = .inl t := by
  induction n generalizing s with
  | zero =>
    unfold runFor at h
    split at h
    case h_1 u passed e =>
      cases h
      exact ⟨s, rfl, e⟩
    case h_2 => cases h
  | succ n ih =>
    rw [runFor] at h
    split at h
    case h_1 v passed e =>
      obtain ⟨u, hu, last⟩ := ih h
      refine ⟨u, ?_, last⟩
      rw [runFor, passed, e]
      exact hu
    case h_2 => cases h

/-- Two machines in lockstep: related states step to related states or stop with related
results, together. -/
structure Lockstep (next : S → S ⊕ R) (next' : S' → S' ⊕ R') (Rel : S → S' → Prop)
    (Res : R → R' → Prop) : Prop where
  step : ∀ s s' t, Rel s s' → next s = .inl t → ∃ t', next' s' = .inl t' ∧ Rel t t'
  stop : ∀ s s' r, Rel s s' → next s = .inr r → ∃ r', next' s' = .inr r' ∧ Res r r'

/-- In lockstep, if the first machine halts then so does the second. -/
lemma Lockstep.halts {Rel : S → S' → Prop} {Res : R → R' → Prop}
    (lk : Lockstep next next' Rel Res) {s s' r} (rel : Rel s s') (h : Halts next s r) :
    ∃ r', Halts next' s' r' ∧ Res r r' := by
  obtain ⟨n, h⟩ := h
  induction h generalizing s' with
  | @stop s r e =>
    obtain ⟨r', e', res⟩ := lk.stop _ _ _ rel e
    exact ⟨r', .stop e', res⟩
  | @step n s t r e _ ih =>
    obtain ⟨t', e', rel'⟩ := lk.step _ _ _ rel e
    obtain ⟨r', h', res⟩ := ih rel'
    exact ⟨r', h'.head e', res⟩

/-- In lockstep, if the second machine halts then so does the first. -/
lemma Lockstep.halted {Rel : S → S' → Prop} {Res : R → R' → Prop}
    (lk : Lockstep next next' Rel Res) {s s' r'} (rel : Rel s s') (h : Halts next' s' r') :
    ∃ r, Halts next s r ∧ Res r r' := by
  obtain ⟨n, h⟩ := h
  induction n generalizing s s' with
  | zero =>
    cases e : next s with
    | inl t =>
      obtain ⟨t', e', _⟩ := lk.step _ _ _ rel e
      obtain ⟨k, hk, _⟩ := h.tail e'
      exact absurd hk (by omega)
    | inr r =>
      obtain ⟨r1, e', res⟩ := lk.stop _ _ _ rel e
      obtain rfl := HaltsIn.unique (.stop e') h
      exact ⟨r, .stop e, res⟩
  | succ n ih =>
    cases e : next s with
    | inl t =>
      obtain ⟨t', e', rel'⟩ := lk.step _ _ _ rel e
      obtain ⟨k, hk, h⟩ := h.tail e'
      obtain rfl : n = k := by omega
      obtain ⟨r, hr, res⟩ := ih rel' h
      exact ⟨r, hr.head e, res⟩
    | inr r =>
      obtain ⟨r1, e', res⟩ := lk.stop _ _ _ rel e
      obtain rfl := HaltsIn.unique (.stop e') h
      exact ⟨r, .stop e, res⟩

/-- Each step of the first machine is one or more steps of the second, and when the first stops
the second halts. -/
structure Simulates (next : S → S ⊕ R) (next' : S' → S' ⊕ R') (Rel : S → S' → Prop)
    (Res : R → R' → Prop) : Prop where
  step : ∀ s s' t, Rel s s' → next s = .inl t →
    ∃ u' t', next' s' = .inl u' ∧ Reach next' u' t' ∧ Rel t t'
  stop : ∀ s s' r, Rel s s' → next s = .inr r → ∃ r', Halts next' s' r' ∧ Res r r'

/-- In a simulation, what the coarse machine visits is matched by what the fine one visits. -/
lemma Simulates.visits {Rel : S → S' → Prop} {Res : R → R' → Prop}
    (sim : Simulates next next' Rel Res) {s s' t} (rel : Rel s s') (st : Reach next s t) :
    ∃ t', Reach next' s' t' ∧ Rel t t' := by
  induction st with
  | refl => exact ⟨s', .refl, rel⟩
  | tail _ e ih =>
    obtain ⟨t', run, rel'⟩ := ih
    obtain ⟨u', v', first, rest, rel''⟩ := sim.step _ _ _ rel' e
    exact ⟨v', run.trans (.head first rest), rel''⟩

/-- In a simulation, if the coarse machine halts then so does the fine one. -/
lemma Simulates.halts {Rel : S → S' → Prop} {Res : R → R' → Prop}
    (sim : Simulates next next' Rel Res) {s s' r} (rel : Rel s s') (h : Halts next s r) :
    ∃ r', Halts next' s' r' ∧ Res r r' := by
  obtain ⟨n, h⟩ := h
  induction h generalizing s' with
  | @stop s r e => exact sim.stop _ _ _ rel e
  | @step n s t r e _ ih =>
    obtain ⟨u', t', e', st, rel'⟩ := sim.step _ _ _ rel e
    obtain ⟨r', h', res⟩ := ih rel'
    exact ⟨r', (h'.of_reach st).head e', res⟩

/-- A halting run from a state that is reached from another is no longer than the whole run. -/
lemma HaltsIn.of_reach {n s t r} (st : Reach next s t) (h : HaltsIn next n s r) :
    ∃ k ≤ n, HaltsIn next k t r := by
  induction st with
  | refl => exact ⟨n, Nat.le_refl n, h⟩
  | tail _ e ih =>
    obtain ⟨k, hk, h⟩ := ih
    obtain ⟨j, hj, h⟩ := h.tail e
    exact ⟨j, by omega, h⟩

/-- In a simulation, if the fine machine halts then so does the coarse one. -/
lemma Simulates.halted {Rel : S → S' → Prop} {Res : R → R' → Prop}
    (sim : Simulates next next' Rel Res) {s s' r'} (rel : Rel s s') (h : Halts next' s' r') :
    ∃ r, Halts next s r ∧ Res r r' := by
  obtain ⟨n, h⟩ := h
  -- each coarse step uses up at least one step of the fine run
  induction n using Nat.strongRecOn generalizing s s' with
  | ind n ih =>
    cases e : next s with
    | inl t =>
      obtain ⟨u', t', e', st, rel'⟩ := sim.step _ _ _ rel e
      obtain ⟨k, hk, h⟩ := h.tail e'
      obtain ⟨j, hj, h⟩ := h.of_reach st
      obtain ⟨r, hr, res⟩ := ih j (by omega) rel' h
      exact ⟨r, hr.head e, res⟩
    | inr r =>
      obtain ⟨r1, h1, res⟩ := sim.stop _ _ _ rel e
      obtain rfl := h1.unique ⟨n, h⟩
      exact ⟨r, .stop e, res⟩

/-- In a simulation, the fine machine always comes to a state that matches one of the coarse
machine, or both halt. -/
lemma Simulates.progress {Rel : S → S' → Prop} {Res : R → R' → Prop}
    (sim : Simulates next next' Rel Res) {s s' u} (rel : Rel s s') (st : Reach next' s' u) :
    (∃ t t', Reach next s t ∧ Rel t t' ∧ Reach next' u t') ∨
      ∃ r r', Halts next s r ∧ Halts next' u r' ∧ Res r r' := by
  induction st with
  | refl => exact .inl ⟨s, s', .refl, rel, .refl⟩
  | @tail u v _ e ih =>
    rcases ih with ⟨t, t', run, rel', ahead⟩ | ⟨r, r', halts, ⟨n, halts'⟩, res⟩
    · rcases Relation.ReflTransGen.cases_head ahead with rfl | ⟨w, e', ahead⟩
      -- the fine machine leaves a state that is matched
      · cases e₁ : next t with
        | inl t₁ =>
          obtain ⟨w, t₁', first, rest, rel₁⟩ := sim.step _ _ _ rel' e₁
          obtain rfl : v = w := Sum.inl.inj (e.symm.trans first)
          exact .inl ⟨t₁, t₁', run.tail e₁, rel₁, rest⟩
        | inr r =>
          obtain ⟨r', ⟨n, halts'⟩, res⟩ := sim.stop _ _ _ rel' e₁
          obtain ⟨k, _, halts'⟩ := halts'.tail e
          exact .inr ⟨r, r', .of_reach run (.stop e₁), ⟨k, halts'⟩, res⟩
      · obtain rfl : v = w := Sum.inl.inj (e.symm.trans e')
        exact .inl ⟨t, t', run, rel', ahead⟩
    · obtain ⟨k, _, halts'⟩ := halts'.tail e
      exact .inr ⟨r, r', halts, ⟨k, halts'⟩, res⟩

/-- Each step of the second machine is zero or more steps of the first, and when the second stops
the first halts. -/
structure Covers (next : S → S ⊕ R) (next' : S' → S' ⊕ R') (Rel : S → S' → Prop)
    (Res : R → R' → Prop) : Prop where
  step : ∀ s s' t', Rel s s' → next' s' = .inl t' → ∃ t, Reach next s t ∧ Rel t t'
  stop : ∀ s s' r', Rel s s' → next' s' = .inr r' → ∃ r, Halts next s r ∧ Res r r'

/-- What the second machine visits is covered by what the first visits. -/
lemma Covers.visits {Rel : S → S' → Prop} {Res : R → R' → Prop}
    (cov : Covers next next' Rel Res) {s s' t'} (rel : Rel s s') (st : Reach next' s' t') :
    ∃ t, Reach next s t ∧ Rel t t' := by
  induction st with
  | refl => exact ⟨s, .refl, rel⟩
  | tail _ e ih =>
    obtain ⟨t, run, rel'⟩ := ih
    obtain ⟨u, more, rel''⟩ := cov.step _ _ _ rel' e
    exact ⟨u, run.trans more, rel''⟩

/-- If the second machine halts then so does the first. -/
lemma Covers.halts {Rel : S → S' → Prop} {Res : R → R' → Prop}
    (cov : Covers next next' Rel Res) {s s' r'} (rel : Rel s s') (h : Halts next' s' r') :
    ∃ r, Halts next s r ∧ Res r r' := by
  obtain ⟨t', run', last⟩ := h.last
  obtain ⟨t, run, rel'⟩ := cov.visits rel run'
  obtain ⟨r, halts, res⟩ := cov.stop _ _ _ rel' last
  exact ⟨r, halts.of_reach run, res⟩

end Machine
