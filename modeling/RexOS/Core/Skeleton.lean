import Mathlib.Tactic.Common

/-!
# Control flow without data

A skeleton keeps of a routine the acts that matter for one question, and the order in which its
control flow may take them. Each test may come out either way and each loop may make any number
of rounds, so the paths of a skeleton include those of the routine.

An act may be impossible in a state, and a path that gets there stays there. A triple speaks about
all paths from the states of its precondition: each state they meet, each state in which they end,
and that none of them stays anywhere.
-/

/-- The acts of a routine and their order. -/
inductive Skeleton (α : Type*) where
  | skip
  /-- The routine does not go on, as in an empty loop for ever. -/
  | halt
  | act (a : α)
  | seq (p q : Skeleton α)
  | branch (p q : Skeleton α)
  | loop (p : Skeleton α)

namespace Skeleton

variable {σ α : Type*}

/-- One part after the other. -/
def block (ps : List (Skeleton α)) : Skeleton α := ps.foldr seq skip

/-- A part that a test may leave out. -/
def maybe (p : Skeleton α) : Skeleton α := branch skip p

section Paths

variable (step : σ → α → Option σ)

/-- The ends of the complete paths. -/
inductive Ends : Skeleton α → σ → σ → Prop
  | skip {s} : Ends .skip s s
  | act {a s t} : step s a = some t → Ends (.act a) s t
  | seq {p q s t u} : Ends p s t → Ends q t u → Ends (.seq p q) s u
  | left {p q s t} : Ends p s t → Ends (.branch p q) s t
  | right {p q s t} : Ends q s t → Ends (.branch p q) s t
  | leave {p s} : Ends (.loop p) s s
  | again {p s t u} : Ends p s t → Ends (.loop p) t u → Ends (.loop p) s u

/-- The states on the paths, their first and their last ones included. -/
inductive Meets : Skeleton α → σ → σ → Prop
  | start {p s} : Meets p s s
  | act {a s t} : step s a = some t → Meets (.act a) s t
  | first {p q s t} : Meets p s t → Meets (.seq p q) s t
  | second {p q s t u} : Ends step p s t → Meets q t u → Meets (.seq p q) s u
  | left {p q s t} : Meets p s t → Meets (.branch p q) s t
  | right {p q s t} : Meets q s t → Meets (.branch p q) s t
  | round {p s t} : Meets p s t → Meets (.loop p) s t
  | again {p s t u} : Ends step p s t → Meets (.loop p) t u → Meets (.loop p) s u

/-- A path gets to an act that is impossible there. -/
inductive Stuck : Skeleton α → σ → Prop
  | act {a s} : step s a = none → Stuck (.act a) s
  | first {p q s} : Stuck p s → Stuck (.seq p q) s
  | second {p q s t} : Ends step p s t → Stuck q t → Stuck (.seq p q) s
  | left {p q s} : Stuck p s → Stuck (.branch p q) s
  | right {p q s} : Stuck q s → Stuck (.branch p q) s
  | round {p s} : Stuck p s → Stuck (.loop p) s
  | again {p s t} : Ends step p s t → Stuck (.loop p) t → Stuck (.loop p) s

end Paths

variable {step : σ → α → Option σ} {I P Q R : σ → Prop} {p q : Skeleton α} {s t : σ}

/-- Every path from a state of `P` meets only states of `I`, ends only in states of `Q` and stays
nowhere. -/
structure Triple (step : σ → α → Option σ) (I P : σ → Prop) (p : Skeleton α) (Q : σ → Prop) :
    Prop where
  meets : ∀ {s t}, P s → Meets step p s t → I t
  ends : ∀ {s t}, P s → Ends step p s t → Q t
  going : ∀ {s}, P s → ¬ Stuck step p s

namespace Triple

/-- More may be known before. -/
theorem pre (h : Triple step I P p Q) (hR : ∀ s, R s → P s) : Triple step I R p Q :=
  ⟨fun hs => h.meets (hR _ hs), fun hs => h.ends (hR _ hs), fun hs => h.going (hR _ hs)⟩

/-- Less may be known afterwards. -/
theorem post (h : Triple step I P p Q) (hR : ∀ s, Q s → R s) : Triple step I P p R :=
  ⟨h.meets, fun hs he => hR _ (h.ends hs he), h.going⟩

/-- A precondition may be taken one state at a time. -/
theorem of_each (h : ∀ s, P s → Triple step I (· = s) p Q) : Triple step I P p Q :=
  ⟨fun hs => (h _ hs).meets rfl, fun hs => (h _ hs).ends rfl, fun hs => (h _ hs).going rfl⟩

/-- Nothing happens. -/
theorem skip (h : ∀ s, P s → I s) : Triple step I P .skip P where
  meets := by
    rintro s t hs ⟨⟩
    exact h s hs
  ends := by
    rintro s t hs ⟨⟩
    exact hs
  going := by
    rintro s hs ⟨⟩

/-- Nothing comes afterwards. -/
theorem halt (h : ∀ s, P s → I s) : Triple step I P .halt Q where
  meets := by
    rintro s t hs ⟨⟩
    exact h s hs
  ends := by
    rintro s t hs ⟨⟩
  going := by
    rintro s hs ⟨⟩

/-- One act. -/
theorem act {a : α} (h : ∀ s, P s → I s) (ha : ∀ s, P s → ∃ t, step s a = some t ∧ I t ∧ Q t) :
    Triple step I P (.act a) Q where
  meets := by
    intro s t hs hm
    cases hm with
    | start => exact h s hs
    | act hst =>
      obtain ⟨u, hu, hI, -⟩ := ha s hs
      exact Option.some.inj (hst.symm.trans hu) ▸ hI
  ends := by
    intro s t hs he
    cases he with
    | act hst =>
      obtain ⟨u, hu, -, hQ⟩ := ha s hs
      exact Option.some.inj (hst.symm.trans hu) ▸ hQ
  going := by
    intro s hs hk
    cases hk with
    | act hst =>
      obtain ⟨u, hu, -, -⟩ := ha s hs
      exact absurd (hst.symm.trans hu) (Option.some_ne_none u).symm

/-- One piece after the other. -/
theorem seq (hp : Triple step I P p Q) (hq : Triple step I Q q R) :
    Triple step I P (.seq p q) R where
  meets := by
    intro s t hs hm
    cases hm with
    | start => exact hp.meets hs .start
    | first hm => exact hp.meets hs hm
    | second he hm => exact hq.meets (hp.ends hs he) hm
  ends := by
    intro s t hs he
    cases he with
    | seq hep heq => exact hq.ends (hp.ends hs hep) heq
  going := by
    intro s hs hk
    cases hk with
    | first hk => exact hp.going hs hk
    | second he hk => exact hq.going (hp.ends hs he) hk

/-- Either of two pieces. -/
theorem branch (hp : Triple step I P p Q) (hq : Triple step I P q Q) :
    Triple step I P (.branch p q) Q where
  meets := by
    intro s t hs hm
    cases hm with
    | start => exact hp.meets hs .start
    | left hm => exact hp.meets hs hm
    | right hm => exact hq.meets hs hm
  ends := by
    intro s t hs he
    cases he with
    | left he => exact hp.ends hs he
    | right he => exact hq.ends hs he
  going := by
    intro s hs hk
    cases hk with
    | left hk => exact hp.going hs hk
    | right hk => exact hq.going hs hk

/-- What one round of a loop keeps, the loop keeps. -/
theorem loop (hp : Triple step I P p P) : Triple step I P (.loop p) P := by
  -- each part by induction on the path, whose rounds start in states of `P`
  have ends : ∀ {s t}, Ends step (.loop p) s t → P s → P t := by
    intro s t he
    generalize hr : Skeleton.loop p = r at he
    induction he with
    | leave => exact id
    | again he _ _ ih =>
      cases hr
      exact fun hs => ih rfl (hp.ends hs he)
    | _ => cases hr
  have meets : ∀ {s t}, Meets step (.loop p) s t → P s → I t := by
    intro s t hm
    generalize hr : Skeleton.loop p = r at hm
    induction hm with
    | start => exact fun hs => hp.meets hs .start
    | round hm _ =>
      cases hr
      exact fun hs => hp.meets hs hm
    | again he _ ih =>
      cases hr
      exact fun hs => ih rfl (hp.ends hs he)
    | _ => cases hr
  have going : ∀ {s}, Stuck step (.loop p) s → ¬ P s := by
    intro s hk
    generalize hr : Skeleton.loop p = r at hk
    induction hk with
    | round hk _ =>
      cases hr
      exact fun hs => hp.going hs hk
    | again he _ ih =>
      cases hr
      exact fun hs => ih rfl (hp.ends hs he)
    | _ => cases hr
  exact ⟨fun hs hm => meets hm hs, fun hs he => ends he hs, fun hs hk => going hk hs⟩

/-- A piece or nothing. -/
theorem maybe (hp : Triple step I P p P) : Triple step I P p.maybe P :=
  (Triple.skip fun _ hs => hp.meets hs .start).branch hp

/-- A block whose parts each keep `P` keeps it. -/
theorem block {ps : List (Skeleton α)} (hI : ∀ s, P s → I s)
    (h : ∀ p ∈ ps, Triple step I P p P) : Triple step I P (.block ps) P := by
  induction ps with
  | nil => exact Triple.skip hI
  | cons p ps ih =>
    have hp := h p List.mem_cons_self
    exact hp.seq (ih fun q hq => h q (List.mem_cons_of_mem p hq))

end Triple

end Skeleton
