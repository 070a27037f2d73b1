import RexOS.Smp.Console

/-!
# Characters from the keyboard

A character goes to the blocked reader, or into `uart_buff` for the next read. A buffer that holds 0
counts as empty, and a full one is written over. With one reader, what has been read and what is in
the buffer is all that has been typed, in order, if and only if no character but 0 comes while
nobody is blocked and the buffer is full.
-/

namespace RexOS.Smp

open Scheduler Kernel

variable {procs : Nat → Process} {v v' : Place → List Nat} {h a p idle : Nat} {m m' m₀ : Machine}
  {e : Event} {g : List (Machine × Event)}

/-- The character that an event takes from the device. -/
def Event.taken : Event → List Nat
  | .external _ irq c => if irq = 10 then [c] else []
  | _ => []

namespace Machine

variable (m : Machine)

/-- A character would go to the process that `shell_ptr` names. -/
def Awaits : Prop := m.kernel.shellPtr ≠ 0 ∧ (m.kernel.procs m.kernel.shellPtr).state = .blocked

instance : Decidable m.Awaits := inferInstanceAs (Decidable (_ ∧ _))

/-- The process whose read an event completes. -/
def reader : Event → Option Nat
  | .syscall h .getc => if m.uartBuff ≠ 0 then some (m.kernel.curr h) else none
  | .external _ irq _ => if irq = 10 ∧ m.Awaits then some m.kernel.shellPtr else none
  | _ => none

/-- What that read returns: `u_context[10]` of the process after the event. -/
def returned (e : Event) : List Nat :=
  match m.reader e, m.step e with
  | some p, some m' => [(m'.kernel.procs p).tf.uContext 10]
  | _, _ => []

/-- The character in the buffer. -/
def pending : List Nat := if m.uartBuff ≠ 0 then [m.uartBuff] else []

/-- A character that nobody awaits is not 0 and finds the buffer empty. -/
def Keeps : Event → Prop
  | .external _ irq c => irq = 10 → ¬ m.Awaits → c ≠ 0 ∧ m.uartBuff = 0
  | _ => True

instance : (e : Event) → Decidable (m.Keeps e)
  | .external _ irq c =>
      inferInstanceAs (Decidable (irq = 10 → ¬ m.Awaits → c ≠ 0 ∧ m.uartBuff = 0))
  | .start _ _ | .spawn _ _ _ _ | .timer _ | .softInterrupt _ | .syscall _ _ | .steal _ | .clean =>
    inferInstanceAs (Decidable True)

/-- If the event is a read, the process `p` reads. -/
def Reader (p : Nat) (m : Machine) (e : Event) : Prop := ∀ h, e = .syscall h .getc →
    m.kernel.curr h = p

instance (p : Nat) (m : Machine) : (e : Event) → Decidable (m.Reader p e)
  | .syscall h .getc => decidable_of_iff (m.kernel.curr h = p)
      ⟨fun hc _ he => by cases he; exact hc, fun hr => hr h rfl⟩
  | .syscall _ (.exit _) | .syscall _ .yield | .syscall _ (.sleep _) | .syscall _ .wait
  | .syscall _ (.sendMsg _) | .syscall _ (.recvMsg _) | .start _ _ | .spawn _ _ _ _ | .timer _
  | .softInterrupt _ | .external _ _ _ | .steal _ | .clean => isTrue fun _ he => by cases he

end Machine

/-- The characters taken from the device in a run, the first one first. -/
def taken (g : List (Machine × Event)) : List Nat := g.reverse.flatMap fun x => x.2.taken

/-- The characters that reads have returned, the first one first. -/
def returned (g : List (Machine × Event)) : List Nat := g.reverse.flatMap fun x => x.1.returned x.2

/-- The characters an event takes from the device come last. -/
theorem taken_cons (x : Machine × Event) (g : List (Machine × Event)) :
    taken (x :: g) = taken g ++ x.2.taken := by
  simp [taken]

/-- So do those that it returns to a reader. -/
theorem returned_cons (x : Machine × Event) (g : List (Machine × Event)) :
    returned (x :: g) = returned g ++ x.1.returned x.2 := by
  simp [returned]

/-! ## Single events -/

/-- What the interrupt of the console does to the buffer. -/
theorem Machine.uartBuff_external {irq c : Nat} (hrun : m.external h irq c = .done () m') :
    m'.uartBuff = if irq = 10 ∧ ¬ m.Awaits then c else m.uartBuff := by
  change (if irq = 10 then if m.Awaits then
    ((m.kernel.putChar m.kernel.shellPtr c).unblockProcess h m.kernel.shellPtr).within m.withKernel
    else .done () { m with uartBuff := c } else .done () m) = _ at hrun
  by_cases hirq : irq = 10
  · rw [if_pos hirq] at hrun
    by_cases hawaits : m.Awaits
    · rw [if_pos hawaits] at hrun
      rw [if_neg fun hc => hc.2 hawaits]
      obtain ⟨k, -, rfl⟩ := Outcome.within_eq_done.mp hrun
      rfl
    · rw [if_neg hawaits] at hrun
      rw [if_pos ⟨hirq, hawaits⟩]
      cases hrun
      rfl
  · rw [if_neg hirq] at hrun
    rw [if_neg fun hc => hirq hc.1]
    cases hrun
    rfl

/-- While a reader waits there is no character left over. -/
theorem Listening.empty (hl : Listening m) (hm : Lone m.kernel v) (ha : m.Awaits) :
    m.uartBuff = 0 :=
  (hl _ (hm.steady.shell ha.1 ha.2) ha.2).2

/-- An event without a reader returns nothing. -/
theorem Machine.returned_none (hno : m.reader e = none) : m.returned e = [] := by
  unfold Machine.returned
  rw [hno]

/-- A read returns what is in the buffer, if there is anything. -/
theorem Machine.returned_getc (hstep : m.step (.syscall h .getc) = some m') :
    m.returned (.syscall h .getc) = m.pending := by
  by_cases hbuff : m.uartBuff = 0
  · have hnone : m.pending = [] := if_neg (not_not.mpr hbuff)
    rw [hnone]
    exact returned_none (if_neg (not_not.mpr hbuff))
  · have hreader : m.reader (.syscall h .getc) = some (m.kernel.curr h) := if_pos hbuff
    have hsome : m.pending = [m.uartBuff] := if_pos hbuff
    unfold Machine.returned
    rw [hreader, hstep, hsome]
    exact congrArg (fun c => [c]) (Machine.getc_register hstep hbuff)

/-- A reader that is blocked returns the character that comes. -/
theorem Lone.returned_external (hm : Lone m.kernel v) (ha : m.Awaits) {c : Nat}
    (hstep : m.step (.external h 10 c) = some m') : m.returned (.external h 10 c) = [c] := by
  obtain rfl : h = 0 := hm.up_iff.mp (Machine.step_eq_some.mp hstep).1
  have hreader : m.reader (.external 0 10 c) = some m.kernel.shellPtr := if_pos ⟨rfl, ha⟩
  obtain ⟨m₁, hstep₁, -, hregister⟩ := hm.hears (hm.steady.shell ha.1 ha.2) ha.2 rfl c
  unfold Machine.returned
  rw [hreader, hstep₁]
  exact congrArg (fun x => [x]) hregister

/-- An event that keeps the characters hands on what was pending and what it takes. -/
theorem Listening.hands (hl : Listening m) (hm : Lone m.kernel v) (hk : m.Keeps e)
    (hstep : m.step e = some m') :
    m.returned e ++ m'.pending = m.pending ++ e.taken := by
  have hrun := (Machine.step_eq_some.mp hstep).2
  by_cases hread : ∃ h, e = .syscall h .getc
  · obtain ⟨h, rfl⟩ := hread
    obtain ⟨hbuff, -⟩ := hm.steady.reads hstep
    have hnone : m'.pending = [] := if_neg (not_not.mpr hbuff)
    rw [hnone, Machine.returned_getc hstep]
    rfl
  · by_cases hchar : ∃ h irq c, e = .external h irq c
    · obtain ⟨h, irq, c, rfl⟩ := hchar
      have hbuff := Machine.uartBuff_external hrun
      by_cases hirq : irq = 10
      · by_cases hawaits : m.Awaits
        · have h0 := hl.empty hm hawaits
          subst hirq
          rw [if_neg fun hc => hc.2 hawaits, h0] at hbuff
          rw [Lone.returned_external hm hawaits hstep]
          simp [Machine.pending, Event.taken, hbuff, h0]
        · obtain ⟨hc, h0⟩ := hk hirq hawaits
          rw [if_pos ⟨hirq, hawaits⟩] at hbuff
          have hreader : m.reader (.external h irq c) = none := if_neg fun hc => hawaits hc.2
          rw [Machine.returned_none hreader]
          simp [Machine.pending, Event.taken, hirq, hbuff, h0, hc]
      · rw [if_neg fun hc => hirq hc.1] at hbuff
        have hreader : m.reader (.external h irq c) = none := if_neg fun hc => hirq hc.1
        rw [Machine.returned_none hreader]
        simp [Machine.pending, Event.taken, hirq, hbuff]
    · have hbuff := Machine.uartBuff_step hstep (fun h he => hread ⟨h, he⟩) fun h irq c he =>
        hchar ⟨h, irq, c, he⟩
      have hnone : m.returned e = [] ∧ e.taken = [] := by
        refine ⟨?_, ?_⟩
        · apply Machine.returned_none
          unfold Machine.reader
          split
          · exact absurd ⟨_, rfl⟩ hread
          · exact absurd ⟨_, _, _, rfl⟩ hchar
          · rfl
        · unfold Event.taken
          split
          · exact absurd ⟨_, _, _, rfl⟩ hchar
          · rfl
      rw [hnone.1, hnone.2, List.nil_append, List.append_nil, Machine.pending, hbuff]
      rfl

/-- Any other event loses one. -/
theorem Machine.loses (hk : ¬ m.Keeps e) (hstep : m.step e = some m') :
    (m.returned e ++ m'.pending).length < (m.pending ++ e.taken).length := by
  have hrun := (Machine.step_eq_some.mp hstep).2
  cases e with
  | external h irq c =>
    have hlost : irq = 10 ∧ ¬ m.Awaits ∧ ¬ (c ≠ 0 ∧ m.uartBuff = 0) := by
      unfold Machine.Keeps at hk
      tauto
    obtain ⟨hirq, hawaits, hlost⟩ := hlost
    have hbuff := Machine.uartBuff_external hrun
    rw [if_pos ⟨hirq, hawaits⟩] at hbuff
    have hreturned : m.returned (.external h irq c) = [] :=
      Machine.returned_none (if_neg fun hc => hawaits hc.2)
    have htaken : (Event.external h irq c).taken = [c] := if_pos hirq
    rw [hreturned, htaken, List.nil_append, List.length_append, Machine.pending, hbuff,
      Machine.pending]
    by_cases hc : c = 0
    · rw [if_neg (not_not.mpr hc)]
      exact Nat.lt_add_left _ Nat.one_pos
    · have h0 : m.uartBuff ≠ 0 := fun h0 => hlost ⟨hc, h0⟩
      rw [if_pos hc, if_pos h0]
      exact Nat.one_lt_two
  | start | spawn | timer | softInterrupt | syscall | steal | clean => exact absurd trivial hk

/-! ## Runs -/

/-- What holds on one hart with one reader. -/
structure Serving (p : Nat) (m : Machine) (v : Place → List Nat) : Prop where
  lone : Lone m.kernel v
  listening : Listening m
  only : ∀ a ∈ m.kernel.existing, (m.kernel.procs a).state = .blocked → a = p

/-- A reader that runs is not blocked. -/
theorem Serving.step (hs : Serving p m v) (hone : m.Reader p e) (hstep : m.step e = some m') :
    ∃ v', Serving p m' v' := by
  have hen := (Machine.step_eq_some.mp hstep).1
  obtain ⟨v', -, hlone⟩ := hs.lone.course hstep
  have hnone : ∀ h, e = .syscall h .getc → ∀ a ∈ m.kernel.existing,
      (m.kernel.procs a).state ≠ .blocked := by
    rintro h rfl a ha hb
    obtain rfl := hs.only a ha hb
    rw [← hone h rfl] at hb
    exact absurd ((hs.lone.steady.runs h hen.1 hen.2.1).symm.trans hb) (by simp)
  refine ⟨v', hlone, hs.listening.step hs.lone hnone hstep, fun a ha hb => ?_⟩
  by_cases hread : ∃ h, e = .syscall h .getc
  · obtain ⟨h, rfl⟩ := hread
    obtain ⟨-, -, hex, hst⟩ := hs.lone.steady.reads hstep
    rw [hst] at hb
    split at hb
    · rename_i hcurr
      exact hcurr.1.trans (hone h rfl)
    · exact absurd hb (hnone h rfl a (hex ▸ ha))
  · have hunread :=
      Unread.step hs.lone.steady (hs.lone.careful hen) (fun h he => hread ⟨h, he⟩) hstep
    obtain ⟨hin, hst⟩ := hunread.blocked a ha hb
    exact hs.only a hin hst

/-- Along a run with one reader every character is served. -/
theorem serving_run (h0 : idle ≠ 0) (hm : Launched procs idle m₀) (hr : Run Machine.step m₀ g m)
    (hone : Run.Steps (Machine.Reader p) g) : ∃ v, Serving p m v := by
  obtain ⟨⟨v, hlone⟩, -, hnone⟩ := hm.lone h0
  exact hr.invariant (I := fun m => ∃ v, Serving p m v) hone
    ⟨v, hlone, fun a ha hb => absurd hb (hnone a ha), fun a ha hb => absurd hb (hnone a ha)⟩
    fun _ _ _ ⟨_, hs⟩ hone hstep => hs.step hone hstep

/-- With one reader, what reads have returned and what is pending is what was pending and what has
been taken from the device, exactly if every character is kept. -/
theorem keyboard_iff (h0 : idle ≠ 0) (hm : Launched procs idle m₀) (hr : Run Machine.step m₀ g m)
    (hone : Run.Steps (Machine.Reader p) g) :
    returned g ++ m.pending = m₀.pending ++ taken g ↔ Run.Steps Machine.Keeps g := by
  -- once a character is lost, too few are there for ever
  have hlost : (Run.Steps Machine.Keeps g ∧ returned g ++ m.pending = m₀.pending ++ taken g) ∨
      ¬ Run.Steps Machine.Keeps g ∧
        (returned g ++ m.pending).length < (m₀.pending ++ taken g).length := by
    induction hr with
    | nil => exact Or.inl ⟨Run.Steps.nil, (List.append_nil _).symm⟩
    | @snoc g t u e hr hstep ih =>
      obtain ⟨hone, hones⟩ := Run.steps_cons.mp hone
      obtain ⟨v, hs⟩ := serving_run h0 hm hr hones
      rw [returned_cons, taken_cons, Run.steps_cons, List.append_assoc,
        ← List.append_assoc m₀.pending]
      dsimp only
      by_cases hk : t.Keeps e
      · have hhands := hs.listening.hands hs.lone hk hstep
        rw [hhands, ← List.append_assoc]
        rcases ih hones with ⟨hks, hall⟩ | ⟨hks, hlen⟩
        · exact Or.inl ⟨⟨hk, hks⟩, by rw [hall]⟩
        · refine Or.inr ⟨fun hc => hks hc.2, ?_⟩
          rw [List.length_append, @List.length_append _ (m₀.pending ++ taken g)]
          exact Nat.add_lt_add_right hlen _
      · have hless := Machine.loses hk hstep
        refine Or.inr ⟨fun hc => hk hc.1, ?_⟩
        have hle : (returned g ++ t.pending).length ≤ (m₀.pending ++ taken g).length := by
          rcases ih hones with ⟨-, hall⟩ | ⟨-, hlen⟩
          · exact (congrArg List.length hall).le
          · exact hlen.le
        simp only [List.length_append] at hless hle ⊢
        omega
  rcases hlost with ⟨hks, hall⟩ | ⟨hks, hlen⟩
  · exact iff_of_true hall hks
  · exact iff_of_false (fun hall => hlen.ne (congrArg List.length hall)) hks

/-- The shell reads and gets a character. Another one comes before it reads again. -/
theorem keyboard_shell : ∃ m₀ g, ∃ m : Machine, Launched emptyMemory 1 m₀ ∧
    Run Machine.step m₀ g m ∧
    m.pending = [66] ∧ returned g ++ m.pending = m₀.pending ++ taken g := by
  have hreach : ∃ m₀ ∈ ((booted emptyMemory 0 1).spawnShell 3 ⟨0, 0⟩).returned,
      Reaches (fun m e => m.Reader 3 e ∧ m.Keeps e) (fun m => m.pending = [66]) m₀
        ([.wait 0 127] ++ interrupt 0 ++ [.event (.syscall 0 .getc), .event (.softInterrupt 0),
          .event (.external 0 10 65), .event (.external 0 10 66)]) := by
    decide +kernel
  obtain ⟨m₀, hm₀, hreach⟩ := hreach
  have hlaunched := launched_first (by decide) hm₀
  obtain ⟨g, m, hr, hc, hpending⟩ :=
    hreach.exists_run ⟨fun _ _ => ⟨fun _ he => (by cases he), trivial⟩,
    fun _ => ⟨fun _ he => (by cases he), trivial⟩⟩ .nil Run.Steps.nil
  exact ⟨m₀, g, m, hlaunched, hr, hpending,
    (keyboard_iff (by decide) hlaunched hr fun x hx => (hc x hx).1).mpr fun x hx => (hc x hx).2⟩

/-- Two characters come before the shell reads. -/
theorem keyboard_overwritten : ∃ m₀ g, ∃ m : Machine, Launched emptyMemory 1 m₀ ∧
    Run Machine.step m₀ g m ∧
    Run.Steps (Machine.Reader 3) g ∧ m₀.pending = [] ∧ taken g = [65, 66] ∧ returned g ++
      m.pending = [66] := by
  have hleads : ∃ m₀ ∈ ((booted emptyMemory 0 1).spawnShell 3 ⟨0, 0⟩).returned,
    Run.Leads Machine.step
      (fun g m => Run.Steps (Machine.Reader 3) g ∧ m₀.pending = [] ∧ taken g = [65, 66] ∧
        returned g ++ m.pending = [66]) [] m₀ [.external 0 10 65, .external 0 10 66] := by
    decide +kernel
  obtain ⟨m₀, hm₀, hleads⟩ := hleads
  obtain ⟨g, m, hr, hlost⟩ := hleads.exists_run .nil
  exact ⟨m₀, g, m, launched_first (by decide) hm₀, hr, hlost⟩

end RexOS.Smp
