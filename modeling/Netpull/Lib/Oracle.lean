import Netpull.Lib.Transition

/-!
# Oracles

A system whose steps ask an oracle may be given another oracle at every step: data that changes
while the system runs. What it does depends on the answers alone, so where no question is asked
twice, the run is one with a single oracle, which gives all of these answers (`Reached.step`,
`Reached.script`).
-/

namespace Netpull.Transition

variable {Ω Q A σ ε : Type*}

/-- A step depends on its oracle through the answer to the question it asks, and on its state up to
`R`. -/
def AsksOnly (answer : Ω → Q → A) (step : Ω → σ → ε → Option σ) (asks : σ → ε → Option Q)
    (R : σ → σ → Prop) : Prop :=
  ∀ o o' s t e s', R s t → (∀ q ∈ asks s e, answer o q = answer o' q) → step o s e = some s' →
    ∃ t', step o' t e = some t' ∧ R s' t'

/-- A state that every oracle leads to, up to `R`, that gives the answers which were given. -/
def Reached (answer : Ω → Q → A) (step : Ω → σ → ε → Option σ) (R : σ → σ → Prop) (s₀ : σ)
    (answers : List (Q × A)) (s : σ) : Prop :=
  ∀ o, (∀ qa ∈ answers, answer o qa.1 = qa.2) →
    ∃ es t, script (step o) s₀ es = some t ∧ R s t

variable {answer : Ω → Q → A} {ostep : Ω → σ → ε → Option σ} {asks : σ → ε → Option Q}
  {R : σ → σ → Prop} {s₀ s s' : σ} {answers : List (Q × A)}

theorem Reached.start (h : R s s₀) : Reached answer ostep R s₀ [] s :=
  fun _ _ => ⟨[], s₀, rfl, h⟩

/-- What changes behind `R` does not matter. -/
theorem Reached.congr (hR : ∀ t, R s t → R s' t) (h : Reached answer ostep R s₀ answers s) :
    Reached answer ostep R s₀ answers s' := by
  intro o ho
  obtain ⟨es, t, hrun, ht⟩ := h o ho
  exact ⟨es, t, hrun, hR t ht⟩

/-- A step asks one more question at most. -/
theorem Reached.step (hasks : AsksOnly answer ostep asks R)
    (h : Reached answer ostep R s₀ answers s) {o : Ω} {e : ε} (hs : ostep o s e = some s') :
    Reached answer ostep R s₀ (answers ++ ((asks s e).map fun q => (q, answer o q)).toList) s' := by
  intro o' ho'
  obtain ⟨es, t, hrun, ht⟩ := h o' fun qa hqa => ho' qa (List.mem_append_left _ hqa)
  have hsame : ∀ q ∈ asks s e, answer o q = answer o' q := by
    intro q hq
    refine (ho' (q, answer o q) (List.mem_append_right _ ?_)).symm
    rw [Option.mem_def.1 hq]
    exact List.mem_singleton_self _
  obtain ⟨t', ht', hR'⟩ := hasks o o' s t e s' ht hsame hs
  refine ⟨es ++ [e], t', ?_, hR'⟩
  rw [script_append, hrun, Option.bind_some, script, ht']
  rfl

end Netpull.Transition
