import RexOS.Scheduler.Threads

/-!
# Every process in its place

On a machine with one hart a process stands where its state says: on the circle of its
priority if it is ready or running, else on the list of its state. `Queued` says so of all
processes there are, and `Orderly` what else the dispatcher relies on, which does not speak
of links.
-/

namespace RexOS.Scheduler

open Kernel

/-- The structure that the state of a process names. -/
def Process.place (p : Process) : Place :=
  match p.state with
  | .ready => .circle 0 p.priority
  | .running => .circle 0 p.priority
  | .blocked => .wait .blocked
  | .zombie => .wait .zombie
  | .sleeping => .wait .sleeping
  | .ipcBlocked => .wait .blockedIpc
  | .sendBlocked => .wait .blockedIpcSend

/-- Ready or running. -/
def Process.OnCircle (p : Process) : Prop := p.state = .ready ∨ p.state = .running

/-- The links spell `v`, and `v` has each process where its state says. -/
structure Queued (s : Kernel) (v : Place → List Nat) : Prop where
  threaded : Threaded s v
  mem : ∀ q a, a ∈ v q ↔ a ∈ s.existing ∧ (s.procs a).place = q

/-- The idle process alone has priority 31 and pid 0, one process at most is running, it is the
current one, and the emergency process can run. -/
structure Orderly (s : Kernel) : Prop where
  nodup : s.existing.Nodup
  alive : s.aliveThreadCounter = s.existing.length
  magic : ∀ a ∈ s.existing, (s.procs a).magic = processMagic
  idle : (s.queues 0).idleProcess ∈ s.existing ∧ (s.procs (s.queues 0).idleProcess).pid = 0 ∧
    (s.procs (s.queues 0).idleProcess).priority = 31 ∧
    (s.procs (s.queues 0).idleProcess).OnCircle
  users : ∀ a ∈ s.existing, a ≠ (s.queues 0).idleProcess →
    (s.procs a).pid ≠ 0 ∧ (s.procs a).priority ≤ 30
  curr : s.curr 0 ∈ s.existing
  running : ∀ a ∈ s.existing, (s.procs a).state = .running → a = s.curr 0
  emergency : s.emergencyProcess = 0 ∨ s.emergencyProcess ∈ s.existing ∧
    (s.procs s.emergencyProcess).OnCircle ∧ (s.procs s.emergencyProcess).priority ≤ 30
  pids : ∀ a ∈ s.existing, ∀ b ∈ s.existing, (s.procs a).pid = (s.procs b).pid → a = b
  given : ∀ a ∈ s.existing, (s.procs a).pid < s.nextPid
  free : ∀ pid, s.nextPid ≤ pid → s.pidRegistry pid = false
  spawned : s.existing.length ≤ s.nextPid

/-- What holds between two calls. -/
structure Sound (s : Kernel) (v : Place → List Nat) : Prop where
  queued : Queued s v
  orderly : Orderly s

variable {s s' : Kernel} {v v' : Place → List Nat} {a t : Nat} {w : WaitList} {p : Place}

/-- A process in the state of a wait list has its place there. -/
theorem Process.place_wait {x : Process} (hx : x.state = w.state) : x.place = .wait w := by
  unfold place
  rw [hx]
  cases w <;> rfl

/-- A process that is ready or running has its place in the circle of its priority. -/
theorem Process.place_circle {x : Process} (hx : x.OnCircle) : x.place = .circle 0 x.priority := by
  unfold place
  rcases hx with hx | hx <;> rw [hx]

/-- Only such a process has its place in a circle, and the circle is the one of its priority. -/
theorem Process.onCircle_of_place {x : Process} {h i : Nat} (hx : x.place = .circle h i) :
    x.OnCircle ∧ x.priority = i := by
  unfold place at hx
  split at hx
  · exact ⟨Or.inl ‹_›, (Place.circle.inj hx).2⟩
  · exact ⟨Or.inr ‹_›, (Place.circle.inj hx).2⟩
  all_goals exact absurd hx (by simp)

/-- Only a process in the state of a wait list has its place there. -/
theorem Process.state_of_place {x : Process} (hx : x.place = .wait w) : x.state = w.state := by
  unfold place at hx
  split at hx
  · exact absurd hx (by simp)
  · exact absurd hx (by simp)
  all_goals
    rw [← Place.wait.inj hx]
    assumption

namespace Queued

/-- In a sound state such a process is in its circle. -/
theorem mem_circle (hq : Queued s v) (ha : a ∈ s.existing) (hc : (s.procs a).OnCircle) :
    a ∈ v (.circle 0 (s.procs a).priority) := (hq.mem _ a).mpr ⟨ha, Process.place_circle hc⟩

/-- In a sound state a process in the state of a wait list is in that list. -/
theorem mem_wait (hq : Queued s v) (ha : a ∈ s.existing) (hw : (s.procs a).state = w.state) :
    a ∈ v (.wait w) := (hq.mem _ a).mpr ⟨ha, Process.place_wait hw⟩

/-- A place holds no more processes than there are. -/
theorem length_le (hq : Queued s v) (q : Place) : (v q).length ≤ s.existing.length :=
  ((hq.threaded.linked q).nodup.subperm fun a ha => ((hq.mem q a).mp ha).1).length_le

/-- One process moves, or comes, to `p`. -/
theorem moved (hq : Queued s v) (ht : Threaded s' v')
    (hv : ∀ q a, a ∈ v' q ↔ a = t ∧ q = p ∨ a ≠ t ∧ a ∈ v q)
    (hex : ∀ a, a ∈ s'.existing ↔ a = t ∨ a ∈ s.existing)
    (hplace : ∀ a, a ≠ t → (s'.procs a).place = (s.procs a).place) (hp : (s'.procs t).place = p) :
    Queued s' v' := by
  refine ⟨ht, fun q a => ?_⟩
  rw [hv, hex, hq.mem]
  by_cases ha : a = t
  · subst ha
    rw [hp]
    constructor
    · rintro (⟨_, rfl⟩ | ⟨hne, _⟩)
      · exact ⟨Or.inl rfl, rfl⟩
      · exact absurd rfl hne
    · rintro ⟨_, rfl⟩
      exact Or.inl ⟨rfl, rfl⟩
  · rw [hplace a ha]
    constructor
    · rintro (⟨he, _⟩ | ⟨_, hin, hpl⟩)
      · exact absurd he ha
      · exact ⟨Or.inr hin, hpl⟩
    · rintro ⟨he | hin, hpl⟩
      · exact absurd he ha
      · exact Or.inr ⟨ha, hin, hpl⟩

end Queued

/-- Only states change, none to running except that of the current process, and the emergency
process may be forgotten. -/
theorem Orderly.restated (ho : Orderly s)
    (hrest : s' = { s with procs := s'.procs, emergencyProcess := s'.emergencyProcess })
    (hsame : ∀ a, (s'.procs a).priority = (s.procs a).priority ∧
      (s'.procs a).pid = (s.procs a).pid ∧ (s'.procs a).magic = (s.procs a).magic)
    (hidle : (s'.procs (s.queues 0).idleProcess).OnCircle)
    (hrun : ∀ a ∈ s.existing, (s'.procs a).state = .running → a = s.curr 0)
    (hem : s'.emergencyProcess = 0 ∨ s'.emergencyProcess = s.emergencyProcess ∧
      ((s.procs s.emergencyProcess).OnCircle → (s'.procs s.emergencyProcess).OnCircle)) :
    Orderly s' := by
  obtain ⟨procs, hprocs⟩ : ∃ procs, procs = s'.procs := ⟨_, rfl⟩
  obtain ⟨em, hemv⟩ : ∃ em, em = s'.emergencyProcess := ⟨_, rfl⟩
  rw [← hprocs] at hsame hidle hrun hem hrest
  rw [← hemv] at hem hrest
  subst hrest
  refine ⟨ho.nodup, ho.alive, fun a ha => (hsame a).2.2.trans (ho.magic a ha), ?_,
    fun a ha hne => ?_,
    ho.curr, hrun, ?_, fun a ha b hb he => ?_, fun a ha => ?_, ho.free, ho.spawned⟩
  · obtain ⟨h1, h2, h3, _⟩ := ho.idle
    exact ⟨h1, (hsame _).2.1.trans h2, (hsame _).1.trans h3, hidle⟩
  · obtain ⟨h1, h2⟩ := ho.users a ha hne
    exact ⟨fun h0 => h1 ((hsame a).2.1.symm.trans h0), (hsame a).1.trans_le h2⟩
  · show em = 0 ∨ em ∈ s.existing ∧ (procs em).OnCircle ∧ (procs em).priority ≤ 30
    rcases hem with h0 | ⟨rfl, hc⟩
    · exact Or.inl h0
    · rcases ho.emergency with h0 | ⟨h1, h2, h3⟩
      · exact Or.inl h0
      · exact Or.inr ⟨h1, hc h2, (hsame _).1.trans_le h3⟩
  · exact ho.pids a ha b hb ((hsame a).2.1.symm.trans (he.trans (hsame b).2.1))
  · exact (hsame a).2.1.trans_lt (ho.given a ha)

/-! ## Members after an edit -/

/-- A process that has left its place is in none, and the others are where they were. -/
theorem Threaded.mem_erased (ht : Threaded s v) (ha : t ∈ v p) (q : Place) (a : Nat) :
    a ∈ Function.update v p ((v p).erase t) q ↔ a ≠ t ∧ a ∈ v q := by
  by_cases hq : q = p
  · subst hq
    rw [Function.update_self]
    exact (ht.linked q).nodup.mem_erase_iff
  · rw [Function.update_of_ne hq]
    constructor
    · intro hin
      exact ⟨ht.ne_of_mem ha hq hin, hin⟩
    · exact And.right

/-- One more process at the front of a place. -/
theorem mem_pushed (v : Place → List Nat) (p q : Place) (t a : Nat) :
    a ∈ Function.update v p (t :: v p) q ↔ a = t ∧ q = p ∨ a ∈ v q := by
  by_cases hq : q = p
  · subst hq
    rw [Function.update_self, List.mem_cons]
    simp
  · rw [Function.update_of_ne hq]
    simp [hq]

/-- One more process at the end of a place. -/
theorem mem_appended (v : Place → List Nat) (p q : Place) (t a : Nat) :
    a ∈ Function.update v p (v p ++ [t]) q ↔ a = t ∧ q = p ∨ a ∈ v q := by
  by_cases hq : q = p
  · subst hq
    rw [Function.update_self, List.mem_append, List.mem_singleton, or_comm]
    simp
  · rw [Function.update_of_ne hq]
    simp [hq]

/-- A circle that moves on has the same members. -/
theorem Threaded.mem_turned (h i : Nat) (q : Place) (a : Nat) :
    a ∈ Function.update v (.circle h i) ((v (.circle h i)).rotate 1) q ↔ a ∈ v q := by
  by_cases hq : q = .circle h i
  · subst hq
    rw [Function.update_self]
    exact List.mem_rotate
  · rw [Function.update_of_ne hq]

/-! ## What keeps everything in place -/

/-- From `s` to `s'` no link changed, and no field that the order depends on. -/
structure Touched (s s' : Kernel) : Prop where
  rest : s' = { s with procs := s'.procs }
  next : s'.next = s.next
  prev : s'.prev = s.prev
  same : ∀ a, (s'.procs a).state = (s.procs a).state ∧ (s'.procs a).priority =
    (s.procs a).priority ∧
    (s'.procs a).pid = (s.procs a).pid ∧ (s'.procs a).magic = (s.procs a).magic

namespace Touched

theorem refl (s : Kernel) : Touched s s := ⟨rfl, rfl, rfl, fun _ => ⟨rfl, rfl, rfl, rfl⟩⟩

/-- Two updates in a row touch no queue if neither does. -/
theorem trans {s'' : Kernel} (h : Touched s s') (h' : Touched s' s'') : Touched s s'' := by
  refine ⟨?_, h'.next.trans h.next, h'.prev.trans h.prev, fun a => ?_⟩
  · rw [h'.rest, h.rest]
  · obtain ⟨h1, h2, h3, h4⟩ := h.same a
    obtain ⟨h1', h2', h3', h4'⟩ := h'.same a
    exact ⟨h1'.trans h1, h2'.trans h2, h3'.trans h3, h4'.trans h4⟩

/-- A store into other fields of one process. -/
theorem modify (s : Kernel) (a : Nat) (f : Process → Process) (hn : ∀ x, (f x).next = x.next)
    (hp : ∀ x, (f x).prev = x.prev) (hs : ∀ x, (f x).state = x.state ∧ (f x).priority = x.priority ∧
      (f x).pid = x.pid ∧ (f x).magic = x.magic) : Touched s (s.modify a f) := by
  refine ⟨rfl, ?_, ?_, fun y => ?_⟩
  · funext y
    by_cases hy : y = a <;> simp [Kernel.next, Kernel.modify, hy, hn]
  · funext y
    by_cases hy : y = a <;> simp [Kernel.prev, Kernel.modify, hy, hp]
  · by_cases hy : y = a
    · subst hy
      simp only [Kernel.modify, Function.update_self]
      exact hs _
    · have he : (s.modify a f).procs y = s.procs y := Function.update_of_ne hy _ _
      rw [he]
      exact ⟨rfl, rfl, rfl, rfl⟩

/-- The first process of every place is the same. -/
theorem first (h : Touched s s') : s'.first = s.first := by
  rw [h.rest]
  funext q
  cases q <;> rfl

/-- Every process has the same place. -/
theorem place (h : Touched s s') (a : Nat) : (s'.procs a).place = (s.procs a).place := by
  obtain ⟨h1, h2, _⟩ := h.same a
  unfold Process.place
  rw [h1, h2]

/-- The same processes belong on a circle. -/
theorem onCircle (h : Touched s s') (a : Nat) : (s'.procs a).OnCircle ↔ (s.procs a).OnCircle := by
  unfold Process.OnCircle
  rw [(h.same a).1]

/-- There are the same processes. -/
theorem existing (h : Touched s s') : s'.existing = s.existing := by rw [h.rest]

/-- The links still thread the places. -/
theorem threaded (h : Touched s s') (ht : Threaded s v) : Threaded s' v := by
  refine ht.congr h.next h.prev h.first (fun k i _ => ?_) ?_
  · rw [h.rest]
    rfl
  · rw [h.rest]
    rfl

/-- Every process is still in its place. -/
theorem queued (h : Touched s s') (hq : Queued s v) : Queued s' v := by
  refine ⟨h.threaded hq.threaded, fun q a => ?_⟩
  rw [h.place, h.existing]
  exact hq.mem q a

/-- The processes are still in order. -/
theorem orderly (h : Touched s s') (ho : Orderly s) : Orderly s' := by
  have hem : s'.emergencyProcess = s.emergencyProcess := by rw [h.rest]
  refine ho.restated ?_ (fun a => (h.same a).2) ((h.onCircle _).mpr ho.idle.2.2.2)
    (fun a ha hr => ho.running a ha ((h.same a).1.symm.trans hr))
    (Or.inr ⟨hem, (h.onCircle _).mpr⟩)
  rw [hem]
  exact h.rest

/-- The state stays sound. -/
theorem sound (h : Touched s s') (hs : Sound s v) : Sound s' v :=
  ⟨h.queued hs.queued, h.orderly hs.orderly⟩

end Touched

/-- The order does not depend on links. -/
theorem orderly_bare : Orderly s.bare ↔ Orderly s :=
  ⟨fun h => ⟨h.nodup, h.alive, h.magic, h.idle, h.users, h.curr, h.running, h.emergency,
    h.pids, h.given, h.free, h.spawned⟩,
   fun h => ⟨h.nodup, h.alive, h.magic, h.idle, h.users, h.curr, h.running, h.emergency,
     h.pids, h.given,
    h.free, h.spawned⟩⟩

/-- A software interrupt changes no place. -/
theorem Sound.trigger (hs : Sound s v) (h : Nat) : Sound (s.trigger h) v := by
  have hq : ∀ k, ((s.trigger h).queues k).idleProcess = (s.queues k).idleProcess ∧
      ((s.trigger h).queues k).currProcess = (s.queues k).currProcess := by
    intro k
    by_cases hk : k = h <;> simp [Kernel.trigger, Kernel.onQueue, hk]
  have ho := hs.orderly
  refine ⟨⟨hs.queued.threaded.congr rfl rfl ?_ (fun k i _ => ?_) ?_, hs.queued.mem⟩, ?_⟩
  · funext q
    cases q with
    | circle k i => by_cases hk : k = h <;> simp [first, Kernel.trigger, Kernel.onQueue, hk]
    | wait w => rfl
  · by_cases hk : k = h <;> simp [bitmap, Kernel.trigger, Kernel.onQueue, hk]
  · funext k
    by_cases hk : k = h <;> simp [count, Kernel.trigger, Kernel.onQueue, hk]
  · refine ⟨ho.nodup, ho.alive, ho.magic, ?_, ?_, ?_, ?_, ho.emergency, ho.pids, ho.given, ho.free,
      ho.spawned⟩
    · rw [(hq 0).1]
      exact ho.idle
    · rw [(hq 0).1]
      exact ho.users
    · show ((s.trigger h).queues 0).currProcess ∈ _
      rw [(hq 0).2]
      exact ho.curr
    · show ∀ a ∈ s.existing, (s.procs a).state = .running → a = ((s.trigger h).queues 0).currProcess
      rw [(hq 0).2]
      exact ho.running

end RexOS.Scheduler
