import RexOS.Kvmalloc.Refine

/-!
# Runs of the slab allocator

A configuration is the allocator's memory with the objects its clients hold. Between
calls a client may store anything into the objects it holds. Every step that gives back
only genuine objects keeps memory in step with a stock that is a matter of the calls
alone.
-/

namespace RexOS.Kvmalloc

open Kalloc (Grant PageAlloc State Granted buddy virt virtBssEnd)

/-- The allocator and its clients. -/
structure Config (β : Type) where
  heap : Heap β
  /-- The objects returned and not freed since, the last one first. -/
  live : List Obj

/-- A call of the allocator, or stores of clients: `stored` is what memory is to hold
wherever an object lies. -/
inductive Op where
  | alloc (size caller : Nat)
  | free (slot : Nat)
  | write (stored : Nat → Nat)

variable {β : Type}

/-- Memory after stores into objects. -/
def overwrite (live : List Obj) (stored mem : Nat → Nat) (x : Nat) : Nat :=
  if live.any fun o => decide (o.Cell x) then stored x else mem x

/-- A call that returns, or stores; a call that stops the machine has no next configuration. -/
def step (A : PageAlloc β) (cachesAt : Nat) (c : Config β) : Op → Option (Config β)
  | .alloc size caller =>
    match kvmalloc A cachesAt c.heap size caller with
    | .done slot t => some ⟨t, ⟨slot, size⟩ :: c.live⟩
    | _ => none
  | .free slot =>
    match kvmfree A cachesAt c.heap slot with
    | .done _ t => some ⟨t, c.live.filter fun o => o.addr != slot⟩
    | _ => none
  | .write stored =>
    some ⟨{ c.heap with mem := overwrite c.live stored c.heap.mem }, c.live⟩

/-- What `kvmalloc_init` leaves, in memory with any content, on a page allocator that has
granted what it may have. -/
def Boot (Owns : β → List Grant → Prop) (c : Config β) : Prop :=
  c.live = [] ∧ ∃ s : Heap β, s.slabs = [] ∧ (∃ L, Owns s.pages L) ∧ c.heap = kvmallocInit s

/-- Clients ask for 1 byte to 8 MiB and free only what they hold. -/
def Proper (c : Config β) : Op → Prop
  | .alloc size _ => 1 ≤ size ∧ size ≤ 0x800000
  | .free slot => ∃ o ∈ c.live, o.addr = slot
  | .write _ => True

/-- What is freed is genuine. -/
def FreesGenuine (cachesAt : Nat) (c : Config β) : Op → Prop
  | .free slot => ∀ o ∈ c.live, o.addr = slot → Genuine cachesAt c.heap o
  | _ => True

variable {A : PageAlloc β} {Owns : β → List Grant → Prop} {cachesAt : Nat} {c d : Config β}
  {a a' : Stock β}

/-- A step that allocates is a `kvmalloc` that returns. -/
theorem step_alloc {size caller : Nat} : step A cachesAt c (.alloc size caller) = some d ↔
    ∃ slot, kvmalloc A cachesAt c.heap size caller = .done slot d.heap ∧
      d.live = ⟨slot, size⟩ :: c.live := by
  obtain ⟨t, l⟩ := d
  rw [step]
  cases kvmalloc A cachesAt c.heap size caller <;> simp only [reduceCtorEq, false_and,
    exists_false, Option.some.injEq, Config.mk.injEq, Outcome.done.injEq]
  constructor
  · rintro ⟨rfl, rfl⟩
    exact ⟨_, ⟨rfl, rfl⟩, rfl⟩
  · rintro ⟨_, ⟨rfl, rfl⟩, rfl⟩
    exact ⟨rfl, rfl⟩

/-- A step that frees is a `kvmfree` that returns. -/
theorem step_free {slot : Nat} : step A cachesAt c (.free slot) = some d ↔
    kvmfree A cachesAt c.heap slot = .done () d.heap ∧
      d.live = c.live.filter fun o => o.addr != slot := by
  obtain ⟨t, l⟩ := d
  rw [step]
  cases kvmfree A cachesAt c.heap slot <;> simp [eq_comm]

/-! ## One step -/

/-- Memory holds the stock, for the objects of the ledger. -/
def Keeps (cachesAt : Nat) (Owns : β → List Grant → Prop) (c : Config β) (a : Stock β) : Prop :=
  ∃ L, Holds cachesAt Owns c.heap a c.live L

/-- What a step does to the stock; stores do nothing. -/
def Stock.step (A : PageAlloc β) (a : Stock β) (live : List Obj) : Op → Option (Stock β × List Obj)
  | .alloc size caller =>
    match a.alloc A size caller with
    | .done slot a' => some (a', ⟨slot, size⟩ :: live)
    | _ => none
  | .free slot =>
    match live.find? fun o => o.addr == slot with
    | some o =>
      match a.free A o with
      | .done _ a' => some (a', live.filter fun o => o.addr != slot)
      | _ => none
    | none => none
  | .write _ => some (a, live)

/-- Whatever the client stores into its objects, the representation holds. -/
theorem Holds.write {s : Heap β} {objs : List Obj} {L : List Grant}
    (hh : Holds cachesAt Owns s a objs L) (stored : Nat → Nat) :
    Holds cachesAt Owns { s with mem := overwrite objs stored s.mem } a objs L where
  rep := hh.rep.write hh.layout fun x hx => if_neg (by simpa using hx)
  pages := hh.pages
  owns := hh.owns
  layout := hh.layout

/-- The ledger names an object once. -/
theorem Holds.find_obj {s : Heap β} {objs : List Obj} {L : List Grant}
    (hh : Holds cachesAt Owns s a objs L) {o : Obj} (ho : o ∈ objs) :
    objs.find? (fun p => p.addr == o.addr) = some o := by
  cases hf : objs.find? (fun p => p.addr == o.addr) with
  | none => simpa using List.find?_eq_none.mp hf o ho
  | some p =>
    have hp : p.addr = o.addr := by simpa using List.find?_some hf
    exact congrArg some
      (List.inj_on_of_nodup_map hh.layout.obj_distinct (List.mem_of_find?_eq_some hf) ho hp)

/-- A step of the program is the step of the stock. -/
theorem Keeps.onStep (hA : A.Grants Owns) (hk : Keeps cachesAt Owns c a) {op : Op}
    (hf : ∀ o ∈ c.live, ∀ k, classOf o.size = .pages k → A.TakesBack Owns)
    (hp : Proper c op) (hg : FreesGenuine cachesAt c op) (hs : step A cachesAt c op = some d) :
    ∃ a', a.step A c.live op = some (a', d.live) ∧ Keeps cachesAt Owns d a' := by
  obtain ⟨L, hh⟩ := hk
  cases op with
  | alloc size caller =>
    obtain ⟨slot, hrun, hlive⟩ := step_alloc.mp hs
    have hsim := kvmalloc_spec hA hh hp.1 hp.2 caller
    rw [hrun] at hsim
    obtain ⟨a', ha, L', hh', -⟩ := hsim.of_done
    refine ⟨a', ?_, L', hlive ▸ hh'⟩
    rw [Stock.step, ha, hlive]
  | free slot =>
    obtain ⟨hrun, hlive⟩ := step_free.mp hs
    obtain ⟨o, ho, rfl⟩ := hp
    obtain ⟨t, a', hrun', hfree, hfreed⟩ := kvmfree_spec hh ho (hf o ho) (hg o ho rfl)
    obtain ⟨_, rfl⟩ := Outcome.done.inj (hrun'.symm.trans hrun)
    obtain ⟨L', hh'⟩ := hfreed.holds
    refine ⟨a', ?_, L', hlive ▸ hh'⟩
    rw [Stock.step, hh.find_obj ho]
    simp only [hfree, hlive]
  | write stored =>
    obtain rfl := (Option.some.inj hs).symm
    exact ⟨a, rfl, L, hh.write stored⟩

variable (cachesAt) in
/-- Before the first call there are no slabs. -/
theorem kvmallocInit_holds (hA : A.Grants Owns) {s : Heap β} {L : List Grant}
    (hslabs : s.slabs = []) (hL : Owns s.pages L) :
    Holds cachesAt Owns (kvmallocInit s) ⟨fun _ _ => [], s.pages⟩ [] L := by
  have hnone : entries (fun _ _ => []) = ∅ := by
    ext e
    simp [entries]
  have hcache : ∀ i < numCaches, (kvmallocInit s).caches i = ⟨16 * 1 <<< i, 16 * 1 <<< i,
      if 16 * 1 <<< i > 512 then 1 else 0, fun _ => 0⟩ := fun i hi => if_pos hi
  refine ⟨⟨⟨fun i hi k => ?_, ?_, ?_⟩, ?_, fun i hi => ?_, fun i hi => ?_, ?_⟩, rfl, hL, ?_⟩
  · simp only [Heap.head, hcache i hi, hdrs, List.map_nil]
    exact Dll.empty
  · simp [hdrs]
  · simp [hdrs]
  · simp [hnone]
  · rw [hcache i hi, objSize, Nat.one_shiftLeft]
  · simp only [hcache i hi]
    exact (by decide : ∀ i < numCaches, ((if 16 * 1 <<< i > 512 then 1 else 0) = 0 ↔ i < 6)) i hi
  · intro h i
    rw [hnone]
    simp [kvmallocInit, hslabs]
  · refine ⟨hA.blocks hL, ?_, ?_, ?_, ?_, ?_, ?_, ?_, ?_, ?_, ?_, ?_, ?_, ?_, ?_⟩ <;> simp [hnone]

variable (cachesAt) in
/-- It holds after `kvmalloc_init`. -/
theorem Boot.keeps (hA : A.Grants Owns) (hb : Boot Owns c) :
    Keeps cachesAt Owns c ⟨fun _ _ => [], c.heap.pages⟩ := by
  obtain ⟨hlive, s, hslabs, ⟨L, hL⟩, hheap⟩ := hb
  rw [Keeps, hlive, hheap]
  exact ⟨L, kvmallocInit_holds cachesAt hA hslabs hL⟩

/-- On the board the kernel is tested on, the caches come up with a block of every order
to spare. -/
theorem exists_boot (ra : Nat) : ∃ c : Config State, Boot (Granted virt virtBssEnd) c ∧
    ∀ order < 12, ∃ page b, (buddy virt ra).kalloc c.heap.pages order = .done page b := by
  have hend : Kalloc.EndAligned virt := by unfold Kalloc.EndAligned; decide
  have hcount : Kalloc.poolCount virt virtBssEnd = 15 := by decide
  obtain ⟨m, hb⟩ := Kalloc.exists_boot Kalloc.virt_machine Kalloc.virt_fits hend (by decide)
  have hm := hb.sound Kalloc.virt_machine Kalloc.virt_fits hend
  let s : Heap State := ⟨fun _ => 0, fun _ => ⟨0, 0, 0, fun _ => 0⟩, m.mem, []⟩
  refine ⟨⟨kvmallocInit s, []⟩, ⟨rfl, s, rfl, ⟨m.live, _, hm⟩, rfl⟩, fun order ho => ?_⟩
  obtain ⟨d, idx, hs, _⟩ := hm.exists_alloc Kalloc.virt_machine order ra
    ⟨Kalloc.maxOrder - 1, Nat.le_of_lt_succ ho, by decide,
      by simp [Kalloc.topLists, hcount, Kalloc.poolList]⟩
  obtain ⟨page, hrun, _⟩ := Kalloc.step_alloc.mp hs
  exact ⟨page, d.mem, hrun⟩

end RexOS.Kvmalloc
