import ToyIsa.Lib.Machine

/-!
# Contracts of deterministic machines

`Leads next safe P Q` promises that the run from a state of `P` gets to a state of `Q`, and that the
states before it are `safe`. A contract is made of one step (`Leads.step`), contracts compose
(`Leads.trans`), adapt (`Leads.weaken`) and go round a loop that counts down (`Leads.countdown`). A
contract up to a state that stops says how the run ends and that it never leaves the safe states
(`Leads.halts`, `Leads.invariant`).
-/

namespace Machine

variable {S R : Type*} {next : S → S ⊕ R} {safe : S → Prop} {P Q : S → Prop}

/-- The run from a state of `P` gets to a state of `Q` through safe states. -/
def Leads (next : S → S ⊕ R) (safe : S → Prop) (P Q : S → Prop) : Prop :=
  ∀ s, P s → ∃ t, ReachVia next (fun u _ => safe u) s t ∧ Q t

/-- All states of a run to a state that stops satisfy what the states on the way do. -/
lemma ReachVia.all_of_stop {s t u : S} {r : R} (run : ReachVia next (fun v _ => safe v) s t)
    (last : safe t) (e : next t = .inr r) (visited : Reach next s u) : safe u := by
  induction run using Relation.ReflTransGen.head_induction_on with
  | refl =>
    obtain rfl | ⟨v, first, _⟩ := Relation.ReflTransGen.cases_head visited
    · exact last
    · rw [show next t = .inl v from first] at e
      cases e
  | @head s v first _ ih =>
    -- the machine is deterministic, so both runs go on from the same state
    obtain rfl | ⟨v', first', rest⟩ := Relation.ReflTransGen.cases_head visited
    · exact first.2
    · obtain rfl : v = v' := Sum.inl.inj (first.1.symm.trans first')
      exact ih rest

namespace Leads

variable {P' Q' : S → Prop}

/-- A contract that is kept without a step. -/
lemma refl (h : ∀ s, P s → Q s) : Leads next safe P Q := fun s p => ⟨s, .refl, h s p⟩

/-- A contract of one step. -/
lemma step (h : ∀ s, P s → safe s ∧ ∃ t, next s = .inl t ∧ Q t) : Leads next safe P Q := by
  intro s p
  obtain ⟨ok, t, e, q⟩ := h s p
  exact ⟨t, .single ⟨e, ok⟩, q⟩

/-- Two contracts, one after the other. -/
lemma trans (h : Leads next safe P Q) (h' : Leads next safe Q Q') : Leads next safe P Q' := by
  intro s p
  obtain ⟨t, run, q⟩ := h s p
  obtain ⟨u, run', q'⟩ := h' t q
  exact ⟨u, run.trans run', q'⟩

/-- The rule of consequence. -/
lemma weaken (pre : ∀ s, P' s → P s) (h : Leads next safe P Q) (post : ∀ s, Q s → Q' s) :
    Leads next safe P' Q' := by
  intro s p
  obtain ⟨t, run, q⟩ := h s (pre s p)
  exact ⟨t, run, post t q⟩

/-- A loop that counts down: each round takes the invariant to the next lower count. -/
lemma countdown {I : Nat → S → Prop} (round : ∀ n, Leads next safe (I (n + 1)) (I n)) (n : Nat) :
    Leads next safe (I n) (I 0) := by
  induction n with
  | zero => exact refl fun _ h => h
  | succ n ih => exact (round n).trans ih

/-- A run that gets to a state that stops halts with its result. -/
lemma halts (h : Leads next safe P Q) {E : R → Prop}
    (stop : ∀ s, Q s → ∃ r, next s = .inr r ∧ E r) {s} (p : P s) :
    ∃ r, Halts next s r ∧ E r := by
  obtain ⟨t, run, q⟩ := h s p
  obtain ⟨r, e, post⟩ := stop t q
  have visited : Reach next s t := Relation.ReflTransGen.mono (fun _ _ e => e.1) s t run
  exact ⟨r, (Halts.stop e).of_reach visited, post⟩

/-- A run that gets to a safe state that stops visits safe states only. -/
lemma invariant (h : Leads next safe P Q) (stop : ∀ s, Q s → safe s ∧ ∃ r, next s = .inr r) {s}
    (p : P s) {u} (visited : Reach next s u) : safe u := by
  obtain ⟨t, run, q⟩ := h s p
  obtain ⟨last, r, e⟩ := stop t q
  exact run.all_of_stop last e visited

end Leads

end Machine
