import Mathlib.Tactic.Common

/-!
# Runs of a partial step function

A step takes a state and a label to the next state, or to nothing when the machine
stops there. A run records the state before every step beside its label, the last step
first, so that a condition on the steps of a run can be stated and an invariant carried
from the start of a run to its end.
-/

/-- `Run step s h t`: from `s` the steps `h`, the last one first, lead to `t`. -/
inductive Run {σ α : Type*} (step : σ → α → Option σ) (s : σ) : List (σ × α) → σ → Prop
  | nil : Run step s [] s
  | snoc {h : List (σ × α)} {t u : σ} {a : α} :
      Run step s h t → step t a = some u → Run step s ((t, a) :: h) u

namespace Run

variable {σ α : Type*} {step : σ → α → Option σ} {s t u : σ} {h g : List (σ × α)}

/-- Every step of the run meets `P`. -/
def Steps (P : σ → α → Prop) (h : List (σ × α)) : Prop := ∀ x ∈ h, P x.1 x.2

instance {P : σ → α → Prop} [∀ s a, Decidable (P s a)] : Decidable (Steps P h) :=
  inferInstanceAs (Decidable (∀ x ∈ h, P x.1 x.2))

/-- No step. -/
theorem Steps.nil {P : σ → α → Prop} : Steps P ([] : List (σ × α)) :=
  fun _ hx => absurd hx List.not_mem_nil

/-- One step more. -/
theorem steps_cons {P : σ → α → Prop} {a : α} :
    Steps P ((t, a) :: h) ↔ P t a ∧ Steps P h := List.forall_mem_cons

/-- What holds at the start and is kept by every permitted step holds at the end. -/
theorem invariant {I : σ → Prop} {P : σ → α → Prop} (hr : Run step s h t) (hP : Steps P h)
    (h0 : I s) (hstep : ∀ s a t, I s → P s a → step s a = some t → I t) : I t := by
  induction hr with
  | nil => exact h0
  | snoc _ ha ih =>
    obtain ⟨hpa, hps⟩ := steps_cons.mp hP
    exact hstep _ _ _ (ih hps) hpa ha

/-- The same for what also depends on the steps taken. -/
theorem invariant_along {I : List (σ × α) → σ → Prop} {P : σ → α → Prop} (hr : Run step s h t)
    (hP : Steps P h) (h0 : I [] s)
    (hstep : ∀ g s a t, I g s → P s a → step s a = some t → I ((s, a) :: g) t) : I h t := by
  induction hr with
  | nil => exact h0
  | snoc _ ha ih =>
    obtain ⟨hpa, hps⟩ := steps_cons.mp hP
    exact hstep _ _ _ _ (ih hps) hpa ha

/-- The start of a step of the run is itself reached by a run. -/
theorem before {x : σ × α} (hr : Run step s h t) (hx : x ∈ h) :
    ∃ g, Run step s g x.1 ∧ g ⊆ h := by
  induction hr with
  | nil => exact absurd hx List.not_mem_nil
  | snoc hr ha ih =>
    rcases List.mem_cons.mp hx with rfl | hx
    · exact ⟨_, hr, List.subset_cons_self _ _⟩
    · obtain ⟨g, hg, hsub⟩ := ih hx
      exact ⟨g, hg, fun y hy => List.mem_cons_of_mem _ (hsub hy)⟩

/-- A run goes on from where another one ends. -/
theorem append (hr : Run step s h t) (hg : Run step t g u) : Run step s (g ++ h) u := by
  induction hg with
  | nil => exact hr
  | snoc _ ha ih => exact ih.snoc ha

/-- The first steps of a run are a run. -/
theorem suffix (hr : Run step s h t) (hg : g <:+ h) : ∃ u, Run step s g u := by
  induction hr with
  | nil =>
    obtain rfl := List.suffix_nil.mp hg
    exact ⟨s, .nil⟩
  | snoc hr ha ih =>
    rcases List.suffix_cons_iff.mp hg with rfl | hg
    · exact ⟨_, hr.snoc ha⟩
    · exact ih hg

/-- The labels can be taken from `s` one after the other, each permitted, up to a state in `Q`. -/
def Takes (step : σ → α → Option σ) (P : σ → α → Prop) (Q : σ → Prop) : σ → List α → Prop
  | s, [] => Q s
  | s, a :: as => P s a ∧ ∃ u, step s a = some u ∧ Takes step P Q u as

/-- Where each step can be computed, this is a matter of computation. -/
instance Takes.decidable {P : σ → α → Prop} {Q : σ → Prop} [∀ s a, Decidable (P s a)]
    [DecidablePred Q] : (s : σ) → (as : List α) → Decidable (Takes step P Q s as)
  | s, [] => inferInstanceAs (Decidable (Q s))
  | s, a :: as =>
    match h : step s a with
    | none => isFalse fun ⟨_, _, hu, _⟩ => Option.some_ne_none _ (hu.symm.trans h)
    | some u =>
      have := Takes.decidable (P := P) (Q := Q) u as
      decidable_of_iff (P s a ∧ Takes step P Q u as)
        ⟨fun ⟨hp, ht⟩ => ⟨hp, u, h, ht⟩,
          fun ⟨hp, _, hu, ht⟩ => ⟨hp, Option.some.inj (h.symm.trans hu) ▸ ht⟩⟩

/-- Labels that can be taken make a run. -/
theorem Takes.exists_run {P : σ → α → Prop} {Q : σ → Prop} {as : List α}
    (hr : Run step s h t) (hP : Steps P h) (has : Takes step P Q t as) :
    ∃ g u, Run step s g u ∧ Steps P g ∧ g.map Prod.snd = as.reverse ++ h.map Prod.snd ∧ Q u := by
  induction as generalizing h t with
  | nil => exact ⟨h, t, hr, hP, rfl, has⟩
  | cons a as ih =>
    obtain ⟨hp, u, hu, has⟩ := has
    obtain ⟨g, v, hg, hPg, hmap, hQ⟩ := ih (hr.snoc hu) (steps_cons.mpr ⟨hp, hP⟩) has
    refine ⟨g, v, hg, hPg, ?_, hQ⟩
    rw [hmap, List.map_cons, List.reverse_cons, List.append_assoc]
    rfl

/-- The labels can be taken from `s` after the steps `h`, up to a state and steps in `Q`. -/
def Leads (step : σ → α → Option σ) (Q : List (σ × α) → σ → Prop) : List (σ × α) → σ → List α → Prop
  | h, s, [] => Q h s
  | h, s, a :: as => ∃ u, step s a = some u ∧ Leads step Q ((s, a) :: h) u as

instance Leads.decidable {Q : List (σ × α) → σ → Prop} [∀ h s, Decidable (Q h s)] :
    (h : List (σ × α)) → (s : σ) → (as : List α) → Decidable (Leads step Q h s as)
  | h, s, [] => inferInstanceAs (Decidable (Q h s))
  | h, s, a :: as =>
    match ha : step s a with
    | none => isFalse fun ⟨_, hu, _⟩ => Option.some_ne_none _ (hu.symm.trans ha)
    | some u =>
      have := Leads.decidable (Q := Q) ((s, a) :: h) u as
      decidable_of_iff (Leads step Q ((s, a) :: h) u as)
        ⟨fun hq => ⟨u, ha, hq⟩, fun ⟨_, hu, hq⟩ => Option.some.inj (ha.symm.trans hu) ▸ hq⟩

/-- Actions that lead somewhere are a run. -/
theorem Leads.exists_run {Q : List (σ × α) → σ → Prop} {as : List α} (hr : Run step s h t)
    (has : Leads step Q h t as) : ∃ g u, Run step s g u ∧ Q g u := by
  induction as generalizing h t with
  | nil => exact ⟨h, t, hr, has⟩
  | cons a as ih =>
    obtain ⟨u, hu, has⟩ := has
    exact ih (hr.snoc hu) has

/-- Two runs, taken step by step together. -/
theorem paired {σ₂ β : Type*} {step₂ : σ₂ → β → Option σ₂} {s₂ t₂ : σ₂} {h₂ : List (σ₂ × β)}
    {I : σ → σ₂ → Prop} {P : σ → α → Prop} {Q : σ₂ → β → Prop} {E : α → β → Prop}
    (hr : Run step s h t) (hr₂ : Run step₂ s₂ h₂ t₂)
    (hE : List.Forall₂ (fun x y => E x.2 y.2) h h₂) (hP : Steps P h) (hQ : Steps Q h₂)
    (h0 : I s s₂)
    (hstep : ∀ c a d c₂ b d₂, I c c₂ → P c a → Q c₂ b → E a b → step c a = some d →
      step₂ c₂ b = some d₂ → I d d₂) : I t t₂ := by
  induction hr generalizing h₂ t₂ with
  | nil =>
    cases hE
    cases hr₂
    exact h0
  | snoc _ ha ih =>
    cases hE with
    | cons he hE =>
      cases hr₂ with
      | snoc hr₂ hb =>
        obtain ⟨hpa, hps⟩ := steps_cons.mp hP
        obtain ⟨hqa, hqs⟩ := steps_cons.mp hQ
        exact hstep _ _ _ _ _ _ (ih hr₂ hE hps hqs) hpa hqa he ha hb

end Run
