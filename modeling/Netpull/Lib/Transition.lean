import Mathlib.Data.List.Induction
import Mathlib.Order.WellFounded

/-!
# Transition systems

A system takes its next step from a list of events and may refuse one. A script is a schedule of
everything that happens, so what holds after every script holds for every interleaving
(`script_invariant`). `script_simulates` carries a simulation over a whole script,
`eachState_iff` says which steps of a run have to be good for its states to be good, and
`inevitably_of_measure` says that a system comes to its end under every schedule.
-/

namespace Netpull.Transition

/-! ## Scripts -/

section Scripts

variable {σ τ ε : Type*} (step : σ → ε → Option σ) (astep : τ → ε → τ)

/-- What a script leads to, if none of its events is refused. -/
def script (s : σ) : List ε → Option σ
  | [] => some s
  | e :: es => (step s e).bind fun s' => script s' es

/-- Every event of the script meets a condition on the states it finds. -/
def Along (good : σ → τ → ε → Prop) : σ → τ → List ε → Prop
  | _, _, [] => True
  | s, t, e :: es => good s t e ∧ ∀ s' ∈ step s e, Along good s' (astep t e) es

instance decidableAlong (good : σ → τ → ε → Prop) [∀ s t e, Decidable (good s t e)] :
    ∀ (s : σ) (t : τ) (es : List ε), Decidable (Along step astep good s t es)
  | _, _, [] => inferInstanceAs (Decidable True)
  | s, t, e :: es =>
    have := fun s' => decidableAlong good s' (astep t e) es
    inferInstanceAs (Decidable (good s t e ∧ ∀ s' ∈ step s e, Along step astep good s' _ es))

variable {step astep}

theorem script_append (s : σ) (es fs : List ε) :
    script step s (es ++ fs) = (script step s es).bind fun s' => script step s' fs := by
  induction es generalizing s with
  | nil => rfl
  | cons e es ih =>
    rw [List.cons_append, script, script]
    cases step s e with
    | none => rfl
    | some s' => exact ih s'

theorem along_of_forall {good : σ → τ → ε → Prop} {es : List ε}
    (h : ∀ e ∈ es, ∀ s t, good s t e) (s : σ) (t : τ) : Along step astep good s t es := by
  induction es generalizing s t with
  | nil => trivial
  | cons e es ih =>
    refine ⟨h e List.mem_cons_self s t, fun s' _ => ?_⟩
    exact ih (fun e' he' => h e' (List.mem_cons_of_mem e he')) s' _

theorem Along.and {good good' : σ → τ → ε → Prop} {es : List ε} {s : σ} {t : τ}
    (h : Along step astep good s t es) (h' : Along step astep good' s t es) :
    Along step astep (fun s t e => good s t e ∧ good' s t e) s t es := by
  induction es generalizing s t with
  | nil => trivial
  | cons e es ih => exact ⟨⟨h.1, h'.1⟩, fun s' hs' => ih (h.2 s' hs') (h'.2 s' hs')⟩

/-- If no good event is refused and each keeps two systems related, a good script leaves them
related. -/
theorem script_simulates (good : σ → τ → ε → Prop) (R : σ → τ → Prop)
    (hstep : ∀ s t e, R s t → good s t e → ∃ s', step s e = some s' ∧ R s' (astep t e))
    {es : List ε} {s : σ} {t : τ} (hR : R s t) (hgood : Along step astep good s t es) :
    ∃ s', script step s es = some s' ∧ R s' (es.foldl astep t) := by
  induction es generalizing s t with
  | nil => exact ⟨s, rfl, hR⟩
  | cons e es ih =>
    obtain ⟨he, hes⟩ := hgood
    obtain ⟨s', hs', hR'⟩ := hstep s t e hR he
    obtain ⟨s'', hs'', hR''⟩ := ih hR' (hes s' hs')
    refine ⟨s'', ?_, hR''⟩
    rw [script, hs', Option.bind_some]
    exact hs''

/-- What every event keeps holds after every script. -/
theorem script_invariant {Inv : σ → Prop} (hstep : ∀ s e s', Inv s → step s e = some s' → Inv s')
    {es : List ε} {s s' : σ} (hinit : Inv s) (hrun : script step s es = some s') : Inv s' := by
  induction es generalizing s with
  | nil => exact Option.some.inj hrun ▸ hinit
  | cons e es ih =>
    obtain ⟨s₁, hs₁, hrest⟩ := Option.bind_eq_some_iff.1 hrun
    exact ih (hstep s e s₁ hinit hs₁) hrest

/-- What every good event keeps holds after every good script. -/
theorem along_invariant {good : σ → τ → ε → Prop} {Inv : σ → Prop}
    (hstep : ∀ s t e s', Inv s → good s t e → step s e = some s' → Inv s') {es : List ε}
    {s s' : σ} {t : τ} (hinit : Inv s) (hgood : Along step astep good s t es)
    (hrun : script step s es = some s') : Inv s' := by
  induction es generalizing s t with
  | nil => exact Option.some.inj hrun ▸ hinit
  | cons e es ih =>
    obtain ⟨s₁, hs₁, hrest⟩ := Option.bind_eq_some_iff.1 hrun
    exact ih (hstep s t e s₁ hinit hgood.1 hs₁) (hgood.2 s₁ hs₁) hrest

variable (step) in
/-- Every state that a run reaches meets a condition. -/
def EachState (P : σ → Prop) (s : σ) (es : List ε) : Prop :=
  ∀ before after s', es = before ++ after → script step s before = some s' → P s'

variable (step) in
/-- Every event of a run meets a condition on the state it finds. -/
def EachStep (good : σ → ε → Prop) (s : σ) (es : List ε) : Prop :=
  ∀ before e after s', es = before ++ e :: after → script step s before = some s' → good s' e

theorem script_snoc {s s' : σ} {es : List ε} {e : ε} (h : script step s (es ++ [e]) = some s') :
    ∃ s₁, script step s es = some s₁ ∧ step s₁ e = some s' := by
  rw [script_append, Option.bind_eq_some_iff] at h
  obtain ⟨s₁, hs₁, hlast⟩ := h
  rw [script, Option.bind_eq_some_iff] at hlast
  obtain ⟨s₂, hs₂, hnil⟩ := hlast
  exact ⟨s₁, hs₁, hs₂.trans hnil⟩

/-- A condition on the steps of a run, from its decidable form. -/
theorem eachStep_of_along {good : σ → ε → Prop} {s : σ} {es : List ε}
    (h : Along step (fun (t : Unit) _ => t) (fun s _ e => good s e) s () es) :
    EachStep step good s es := by
  induction es generalizing s with
  | nil =>
    intro before e after s' hes
    exact absurd hes (by simp)
  | cons e es ih =>
    intro before e' after s' hes hrun
    cases before with
    | nil =>
      obtain ⟨rfl, -⟩ := List.cons.inj hes
      obtain rfl := Option.some.inj hrun
      exact h.1
    | cons e'' before =>
      obtain ⟨rfl, hrest⟩ := List.cons.inj hes
      obtain ⟨s₁, hs₁, hrun⟩ := Option.bind_eq_some_iff.1 hrun
      exact ih (h.2 s₁ hs₁) before e' after s' hrest hrun

section Exact

variable {P Inv : σ → Prop} {good : σ → ε → Prop}

/-- What holds first and is kept by the steps of a run holds of all its states. -/
theorem eachState_of_steps {s : σ} {es : List ε} (hinit : Inv s)
    (hstep : ∀ before e after s₁ s', es = before ++ e :: after → script step s before = some s₁ →
      Inv s₁ → step s₁ e = some s' → Inv s') : EachState step Inv s es := by
  intro before
  induction before using List.reverseRecOn with
  | nil =>
    intro after s' _ hrun
    exact Option.some.inj hrun ▸ hinit
  | append_singleton before e ih =>
    intro after s' hes hrun
    rw [List.append_assoc] at hes
    obtain ⟨s₁, hs₁, hlast⟩ := script_snoc hrun
    exact hstep before e after s₁ s' hes hs₁ (ih _ s₁ hes hs₁) hlast

/-- **Exact conditions on steps**: if good steps keep what makes a state good, and a step that is
not good leads to a state that is not good, then the states of a run are good if and only if its
steps are. -/
theorem eachState_iff (hgood : ∀ s, Inv s → P s)
    (hstep : ∀ s e s', Inv s → good s e → step s e = some s' → Inv s')
    (hbad : ∀ s e, Inv s → ¬ good s e → ∃ s', step s e = some s' ∧ ¬ P s') {s : σ} (hinit : Inv s)
    {es : List ε} : EachState step P s es ↔ EachStep step good s es := by
  constructor
  · intro h
    have hgoes : ∀ before e after s₁, es = before ++ e :: after →
        script step s before = some s₁ → Inv s₁ → good s₁ e := by
      intro before e after s₁ hes hs₁ hinv
      by_contra hnot
      obtain ⟨s', hs', hP⟩ := hbad s₁ e hinv hnot
      have hrun : script step s (before ++ [e]) = some s' := by
        rw [script_append, hs₁, Option.bind_some, script, hs']
        rfl
      exact hP (h (before ++ [e]) after s' (by rw [hes, List.append_assoc]; rfl) hrun)
    have hinv : EachState step Inv s es := by
      apply eachState_of_steps hinit
      intro before e after s₁ s' hes hs₁ hinv hs'
      exact hstep s₁ e s' hinv (hgoes before e after s₁ hes hs₁ hinv) hs'
    intro before e after s₁ hes hs₁
    exact hgoes before e after s₁ hes hs₁ (hinv before (e :: after) s₁ hes hs₁)
  · intro h before after s' hes hrun
    apply hgood
    refine eachState_of_steps hinit ?_ before after s' hes hrun
    intro before e after s₁ s' hes hs₁ hinv hs'
    exact hstep s₁ e s' hinv (h before e after s₁ hes hs₁) hs'

end Exact

variable (step) in
/-- Whatever happens, something goes on happening until `P` holds, which it does after finitely many
events. -/
inductive Inevitably (P : σ → Prop) : σ → Prop
  | now {s : σ} : P s → Inevitably P s
  | later {s : σ} : (∃ e s', step s e = some s') →
      (∀ e s', step s e = some s' → Inevitably P s') → Inevitably P s

theorem Inevitably.mono {P Q : σ → Prop} (hPQ : ∀ s, P s → Q s) {s : σ}
    (h : Inevitably step P s) : Inevitably step Q s := by
  induction h with
  | now hP => exact .now (hPQ _ hP)
  | later hgoes _ ih => exact .later hgoes ih

/-- A system that does not stop before `P` holds, and in which every event makes a measure smaller,
comes to `P`. -/
theorem inevitably_of_measure {P Inv : σ → Prop} (measure : σ → Nat)
    (hstep : ∀ s e s', Inv s → step s e = some s' → Inv s')
    (hprogress : ∀ s, Inv s → ¬ P s → ∃ e s', step s e = some s')
    (hmeasure : ∀ s e s', Inv s → step s e = some s' → measure s' < measure s) {s : σ}
    (h : Inv s) : Inevitably step P s := by
  induction hm : measure s using Nat.strong_induction_on generalizing s with
  | _ m ih =>
    by_cases hP : P s
    · exact .now hP
    · apply Inevitably.later (hprogress s h hP)
      intro e s' hs'
      have hlt := hmeasure s e s' h hs'
      rw [hm] at hlt
      exact ih _ hlt (hstep s e s' h hs') rfl

end Scripts

end Netpull.Transition
