import Mathlib.Tactic.Common

/-!
# Outcomes of a routine that may stop the machine

A routine runs on a state. It returns a value, or it stops the machine with a code
and an argument, or it never leaves one of its loops. Each case keeps the state
reached, so that a property may speak about what was changed before a stop.
-/

/-- What a routine does. -/
inductive Outcome (σ α : Type) where
  /-- It returns a value. -/
  | done (value : α) (state : σ)
  /-- It stops the machine. -/
  | panic (code arg : Nat) (state : σ)
  /-- It loops for ever. -/
  | spin (state : σ)

namespace Outcome

variable {σ α β : Type}

/-- The state reached, however the routine ends. -/
def state : Outcome σ α → σ
  | done _ s => s
  | panic _ _ s => s
  | spin s => s

@[simp] theorem state_done (a : α) (s : σ) : (done a s).state = s := rfl
@[simp] theorem state_panic (c x : Nat) (s : σ) : (panic c x s : Outcome σ α).state = s := rfl
@[simp] theorem state_spin (s : σ) : (spin s : Outcome σ α).state = s := rfl

/-- The state left by a routine that returns. -/
def returned : Outcome σ α → Option σ
  | done _ s => some s
  | panic _ _ _ => none
  | spin _ => none

/-- The routine returns. -/
def Ends (o : Outcome σ α) : Prop := ∃ a s, o = done a s

/-- A routine on a part of a larger state. -/
def within {τ : Type} (o : Outcome σ α) (f : σ → τ) : Outcome τ α :=
  match o with
  | done a s => done a (f s)
  | panic c x s => panic c x (f s)
  | spin s => spin (f s)

/-- Run a second routine on the result of a first one that returns. -/
def bind (o : Outcome σ α) (f : α → σ → Outcome σ β) : Outcome σ β :=
  match o with
  | done a s => f a s
  | panic c x s => panic c x s
  | spin s => spin s

@[simp] theorem bind_done (a : α) (s : σ) (f : α → σ → Outcome σ β) :
    (done a s).bind f = f a s := rfl
@[simp] theorem bind_panic (c x : Nat) (s : σ) (f : α → σ → Outcome σ β) :
    (panic c x s).bind f = panic c x s := rfl
@[simp] theorem bind_spin (s : σ) (f : α → σ → Outcome σ β) : (spin s).bind f = spin s := rfl

/-- Three pieces in a row. -/
theorem bind_assoc {γ : Type} (o : Outcome σ α) (f : α → σ → Outcome σ β)
    (g : β → σ → Outcome σ γ) : (o.bind f).bind g = o.bind fun a s => (f a s).bind g := by
  cases o <;> rfl

/-- A sequence returns only when both of its parts do. -/
theorem bind_eq_done {o : Outcome σ α} {f : α → σ → Outcome σ β} {b : β} {t : σ} :
    o.bind f = done b t ↔ ∃ a s, o = done a s ∧ f a s = done b t := by
  cases o <;> simp

/-- What ends has ended its first piece. -/
theorem Ends.of_bind {o : Outcome σ α} {f : α → σ → Outcome σ β} (h : (o.bind f).Ends) :
    o.Ends := by
  obtain ⟨b, t, h⟩ := h
  obtain ⟨a, s, ho, -⟩ := bind_eq_done.mp h
  exact ⟨a, s, ho⟩

/-- A result is one that is done. -/
theorem returned_eq_some {o : Outcome σ α} {s : σ} : o.returned = some s ↔ ∃ a, o = done a s := by
  cases o <;> simp [returned]

/-- A piece that runs within a larger state. -/
theorem within_eq_done {τ : Type} {o : Outcome σ α} {f : σ → τ} {a : α} {t : τ} :
    o.within f = done a t ↔ ∃ s, o = done a s ∧ f s = t := by
  cases o <;> simp [within]

/-- Such a piece within a larger one still. -/
theorem within_within {τ υ : Type} (o : Outcome σ α) (f : σ → τ) (g : τ → υ) :
    (o.within f).within g = o.within fun s => g (f s) := by
  cases o <;> rfl

@[simp] theorem within_id (o : Outcome σ α) : (o.within fun s => s) = o := by
  cases o <;> rfl

@[simp] theorem state_within {τ : Type} (o : Outcome σ α) (f : σ → τ) :
    (o.within f).state = f o.state := by
  cases o <;> rfl

/-- A sequence, seen in a part of its states. -/
theorem within_bind {τ : Type} {o : Outcome σ α} {f : α → σ → Outcome σ β} {g : σ → τ}
    (f' : α → τ → Outcome τ β) (hf : ∀ a s, (f a s).within g = f' a (g s)) :
    (o.bind f).within g = (o.within g).bind f' := by
  cases o with
  | done a s => exact hf a s
  | panic => rfl
  | spin => rfl

/-! ## Two routines in step -/

variable {τ : Type} {R Q : α → σ → τ → Prop} {o : Outcome σ α} {o' : Outcome τ α}

/-- Two routines end alike; when they return, with one value and `R` between the states. -/
def Sim (R : α → σ → τ → Prop) : Outcome σ α → Outcome τ α → Prop
  | done a s, done b t => a = b ∧ R a s t
  | panic c x _, panic d y _ => c = d ∧ x = y
  | spin _, spin _ => True
  | _, _ => False

/-- What is simulated may be told less exactly. -/
theorem Sim.mono (h : Sim R o o') (hRQ : ∀ a s t, R a s t → Q a s t) : Sim Q o o' := by
  cases o <;> cases o' <;> simp only [Sim] at h ⊢
  · exact ⟨h.1, hRQ _ _ _ h.2⟩
  · exact h

/-- Pieces that are simulated, one after the other. -/
theorem Sim.bind {S : β → σ → τ → Prop} {f : α → σ → Outcome σ β} {g : α → τ → Outcome τ β}
    (h : Sim R o o') (hfg : ∀ a s t, R a s t → Sim S (f a s) (g a t)) :
    Sim S (o.bind f) (o'.bind g) := by
  cases o <;> cases o' <;> simp only [Sim] at h
  · obtain ⟨rfl, hR⟩ := h
    exact hfg _ _ _ hR
  · exact h
  · exact trivial

/-- One routine seen from two larger states. -/
theorem Sim.within {υ : Type} {f : υ → σ} {g : υ → τ} (p : Outcome υ α)
    (h : ∀ a u, p = done a u → R a (f u) (g u)) : Sim R (p.within f) (p.within g) := by
  cases p with
  | done a u => exact ⟨rfl, h a u rfl⟩
  | panic c x u => exact ⟨rfl, rfl⟩
  | spin u => exact trivial

/-- When the first routine returns, so does the second. -/
theorem Sim.of_done {a : α} {s : σ} (h : Sim R (done a s) o') : ∃ t, o' = done a t ∧ R a s t := by
  cases o' with
  | done b t =>
    obtain ⟨rfl, hR⟩ := h
    exact ⟨t, rfl, hR⟩
  | panic c x t => exact h.elim
  | spin t => exact h.elim

/-- When the second routine returns, so does the first. -/
theorem Sim.of_done_right {a : α} {t : τ} (h : Sim R o (done a t)) :
    ∃ s, o = done a s ∧ R a s t := by
  cases o with
  | done b s =>
    obtain ⟨rfl, hR⟩ := h
    exact ⟨s, rfl, hR⟩
  | panic c x s => exact h.elim
  | spin s => exact h.elim

/-! ## A routine that returns less often -/

/-- Where the first routine returns, the second one returns the same. -/
def Under (o o' : Outcome σ α) : Prop := ∀ a s, o = done a s → o' = done a s

/-- Any code answers no more often than itself. -/
theorem Under.refl (o : Outcome σ α) : o.Under o := fun _ _ h => h

/-- One piece after the other. -/
theorem Under.bind {o o' : Outcome σ α} {f g : α → σ → Outcome σ β} (h : o.Under o')
    (hfg : ∀ a s, (f a s).Under (g a s)) : (o.bind f).Under (o'.bind g) := by
  intro b t hrun
  obtain ⟨a, s, ho, hf⟩ := bind_eq_done.mp hrun
  rw [h a s ho, bind_done]
  exact hfg a s b t hf

/-- A piece within a larger state. -/
theorem Under.within {τ : Type} {o o' : Outcome σ α} (h : o.Under o') (f : σ → τ) :
    (o.within f).Under (o'.within f) := by
  intro a t hrun
  obtain ⟨s, ho, hs⟩ := within_eq_done.mp hrun
  exact within_eq_done.mpr ⟨s, h a s ho, hs⟩

end Outcome
