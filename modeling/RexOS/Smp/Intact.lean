import RexOS.Smp.Frames
import RexOS.Smp.Revocation

/-!
# What leaves pids and tables alone

Apart from births and from syscalls 10 and 11, no event writes a pid or a table of rights, gives
out a pid or adds a process. This holds in every state, whether the lists are in order or not.
-/

namespace RexOS.Smp

open Scheduler Kernel

variable {s s' k : Kernel} {a pid : Nat} {m m' : Machine} {e : Event}

/-- Pids and tables are the same, and no process is new. -/
structure Intact (s s' : Kernel) : Prop where
  pid : ∀ a, (s'.procs a).pid = (s.procs a).pid
  table : ∀ a, (s'.procs a).capabilityRoot = (s.procs a).capabilityRoot
  existing : s'.existing ⊆ s.existing
  next : s'.nextPid = s.nextPid

namespace Intact

theorem refl (s : Kernel) : Intact s s := ⟨fun _ => rfl, fun _ => rfl, fun _ => id, rfl⟩

/-- Two calls in a row. -/
theorem trans (hk : Intact s k) (hs : Intact k s') : Intact s s' where
  pid a := (hs.pid a).trans (hk.pid a)
  table a := (hs.table a).trans (hk.table a)
  existing _ ha := hk.existing (hs.existing ha)
  next := hs.next.trans hk.next

/-- The rights are the same afterwards. -/
theorem holds (hi : Intact s s') {x : Nat} :
    (s'.procs a).Holds pid x ↔ (s.procs a).Holds pid x := by
  rw [holds_iff, holds_iff, hi.table]

/-- An update that keeps pid and table. -/
theorem modify (s : Kernel) (a : Nat) {f : Process → Process} (hpid : ∀ x, (f x).pid = x.pid)
    (htable : ∀ x, (f x).capabilityRoot = x.capabilityRoot) : Intact s (s.modify a f) := by
  refine ⟨fun b => ?_, fun b => ?_, fun _ => id, rfl⟩
  · rw [procs_modify]
    split
    · rename_i hb
      rw [hpid, hb]
    · rfl
  · rw [procs_modify]
    split
    · rename_i hb
      rw [htable, hb]
    · rfl

/-- So every routine that gives no rights keeps them. -/
theorem frame : Frame Intact where
  refl := refl
  trans := trans
  node s a _ hpid htable _ _ := modify s a hpid htable
  queue _ _ _ _ := ⟨fun _ => rfl, fun _ => rfl, fun _ => id, rfl⟩
  rest hprocs _ hex hnext := ⟨fun a => by rw [hprocs], fun a => by rw [hprocs], hex, hnext⟩

/-! ## The list of those to grant to -/

theorem reply (s : Kernel) (h x : Nat) : Intact s (s.reply h x) :=
  modify s _ (fun _ => rfl) fun _ => rfl

theorem modify_reply {f : Process → Process} (hpid : ∀ p, (f p).pid = p.pid)
    (hroot : ∀ p, (f p).capabilityRoot = p.capabilityRoot) (s : Kernel) (a h x : Nat) :
    Intact s ((s.modify a f).reply h x) :=
  (modify s a hpid hroot).trans (reply _ h x)

/-- The whitelist is no table. -/
theorem editWhitelist (s : Kernel) (h a0 a1 : Nat) : Intact s (s.editWhitelist h a0 a1) := by
  have hadd : Intact s (s.addToWhitelist h a0) := by
    unfold addToWhitelist
    dsimp only
    split
    · exact reply s h 1
    · split
      · exact reply s h _
      · apply modify_reply
        · exact fun _ => rfl
        · exact fun _ => rfl
  have hremove : Intact s (s.removeFromWhitelist h a0) := by
    unfold removeFromWhitelist
    dsimp only
    split
    · exact reply s h 1
    · apply modify_reply
      · exact fun _ => rfl
      · exact fun _ => rfl
  unfold Kernel.editWhitelist
  split
  · exact hadd
  · exact hremove
  · exact reply s h _

/-- All events but the start of a hart and a birth. -/
theorem step (hstart : ∀ h idle, e ≠ .start h idle)
    (hspawn : ∀ h new image priority, e ≠ .spawn h new image priority)
    (hstep : m.step e = some m') : Intact m.kernel m'.kernel :=
  frame.unborn (fun _ _ _ => ⟨fun _ => rfl, fun _ => rfl, fun _ => id, rfl⟩) hstart hspawn hstep

end Intact

end RexOS.Smp
