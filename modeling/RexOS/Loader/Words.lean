import RexOS.Loader.Series

/-!
# Memory of words

The model of memory has numbers without a bound. What the routines that make tables and processes
write fits into 64 bits, so that hardware can have what they leave.
-/

namespace RexOS.Loader

open Bits RexOS.Kalloc RexOS.Paging

variable {β : Type} {A : PageAlloc β} {Owns : β → List Grant → Prop} {s s' : Space β}
  {a v n : Nat}

/-- Memory of words, and an allocator that keeps its blocks apart. -/
structure Worded (Owns : β → List Grant → Prop) (s : Space β) : Prop where
  word : ∀ a, s.mem a < 2 ^ 64
  owns : ∃ L, Owns s.pages L

/-- A store of a word leaves words. -/
theorem Worded.store (h : Worded Owns s) (hv : v < 2 ^ 64) : Worded Owns (s.store a v) where
  word b := by
    rw [Space.store_mem, Function.update_apply]
    split
    · exact hv
    · exact h.word b
  owns := h.owns

/-- So does a loop that zeroes. -/
theorem Worded.zeros (h : Worded Owns s) :
    Worded Owns ((List.range n).foldl (fun s i => s.store (entryAt a i) 0) s) := by
  induction n with
  | zero => exact h
  | succ n ih =>
    rw [List.range_succ, List.foldl_append]
    exact ih.store (by decide)

/-- A byte in a word makes a word. -/
theorem putByte_lt {w i : Nat} {b : UInt8} (hw : w < 2 ^ 64) (hi : i < 8) :
    putByte w i b < 2 ^ 64 := by
  have hb : b.toNat < 256 := b.toNat_lt
  have hpos : 0 < 256 ^ i := Nat.pow_pos (by decide)
  have hlow : w % 256 ^ i < 256 ^ i := Nat.mod_lt _ hpos
  have hsplit : 256 ^ (i + 1) * 256 ^ (7 - i) = 2 ^ 64 := by
    rw [← Nat.pow_add, show i + 1 + (7 - i) = 8 by omega]
    decide
  have hhigh : w / 256 ^ (i + 1) + 1 ≤ 256 ^ (7 - i) := by
    rw [Nat.succ_le_iff, Nat.div_lt_iff_lt_mul (Nat.pow_pos (by decide)), Nat.mul_comm, hsplit]
    exact hw
  have hbyte : b.toNat * 256 ^ i + w % 256 ^ i < 256 ^ (i + 1) := by
    have hmul : (b.toNat + 1) * 256 ^ i ≤ 256 * 256 ^ i := Nat.mul_le_mul_right _ (by omega)
    rw [Nat.pow_succ, Nat.mul_comm (256 ^ i)]
    rw [Nat.add_mul, Nat.one_mul] at hmul
    omega
  have hmul := Nat.mul_le_mul_right (256 ^ (i + 1)) hhigh
  rw [Nat.mul_comm (256 ^ (7 - i)), hsplit, Nat.add_mul, Nat.one_mul] at hmul
  rw [putByte]
  omega

/-- So a store of a byte leaves words. -/
theorem Worded.storeByte {b : UInt8} (h : Worded Owns s) : Worded Owns (storeByte s a b) :=
  h.store (putByte_lt (h.word _) (Nat.mod_lt _ (by decide)))

/-- The copy of the file leaves words. -/
theorem Worded.copyLoop {binary : Nat → UInt8} {filePtr buff : Nat} (h : Worded Owns s) :
    Worded Owns (copyLoop binary filePtr buff n s) := by
  induction n with
  | zero => exact h
  | succ n ih => exact ih.storeByte

/-- The loop behind it leaves words. -/
theorem Worded.zeroLoop {buff j : Nat} (h : Worded Owns s) :
    Worded Owns (zeroLoop buff j n s) := by
  induction n with
  | zero => exact h
  | succ n ih => exact ih.storeByte

/-- An entry that links to a table is a word. -/
theorem linkPte_lt (hv : v < 2 ^ 64) : linkPte v < 2 ^ 64 := by
  have hshift : v >>> 12 <<< 10 < 2 ^ 64 := by
    rw [Nat.shiftRight_eq_div_pow, Nat.shiftLeft_eq]
    omega
  exact Nat.or_lt_two_pow hshift (by decide)

/-- An entry that is a leaf is one. -/
theorem leafPte_lt {user perm : Nat} (hu : user < 2 ^ 64) (hp : perm < 2 ^ 64) (hv : v < 2 ^ 64) :
    leafPte user perm v < 2 ^ 64 := by
  have hshift : v >>> 12 <<< 10 < 2 ^ 64 := by
    rw [Nat.shiftRight_eq_div_pow, Nat.shiftLeft_eq]
    omega
  refine Nat.or_lt_two_pow (Nat.or_lt_two_pow (Nat.or_lt_two_pow (Nat.or_lt_two_pow hshift ?_) hu)
    hp) (by decide)
  split <;> decide

section Routines

variable (hA : A.Grants Owns)
include hA

/-- The address of a block is a word. -/
theorem kallocBlock_worded {order block : Nat} (h : Worded Owns s)
    (hrun : kallocBlock A order s = .done block s') : Worded Owns s' ∧ block < 2 ^ 64 := by
  obtain ⟨b', hk, rfl⟩ := kallocBlock_eq_done.mp hrun
  obtain ⟨L, howns⟩ := h.owns
  have howns' := (hA.kalloc howns hk).2
  have hpage := (hA.blocks howns').page _ List.mem_cons_self
  have hpos := Nat.two_pow_pos order
  dsimp only at hpage
  exact ⟨⟨h.word, _, howns'⟩, by omega⟩

/-- So is that of a page. -/
theorem kallocPage_worded {page : Nat} (h : Worded Owns s) (hrun : kallocPage A s = .done page s') :
    Worded Owns s' ∧ page < 2 ^ 64 :=
  kallocBlock_worded hA h (hrun : kallocBlock A 0 s = .done page s')

/-- A new table and the link to it are words. -/
theorem ensureTable_worded {code virAddr slot t : Nat} (h : Worded Owns s)
    (hrun : ensureTable A code virAddr slot s = .done t s') : Worded Owns s' := by
  unfold ensureTable at hrun
  split at hrun
  · obtain ⟨page, s₁, hpage, hrest⟩ := Outcome.bind_eq_done.mp hrun
    obtain ⟨h₁, hlt⟩ := kallocPage_worded hA h hpage
    split at hrest
    · cases hrest
    · obtain ⟨-, rfl⟩ := Outcome.done.inj hrest
      exact h₁.zeros.store (linkPte_lt hlt)
  · obtain ⟨-, rfl⟩ := Outcome.done.inj hrun
    exact h

omit hA in
/-- Writing a leaf leaves words. -/
theorem putLeaf_worded {user perm slot pa : Nat} (h : Worded Owns s) (hu : user < 2 ^ 64)
    (hp : perm < 2 ^ 64) (hpa : pa < 2 ^ 64) (hrun : putLeaf user perm slot pa s = .done () s') :
    Worded Owns s' := by
  unfold putLeaf at hrun
  split at hrun
  · cases hrun
  · obtain ⟨-, rfl⟩ := Outcome.done.inj hrun
    exact h.store (leafPte_lt hu hp hpa)

/-- So does the loop over the pages. -/
theorem mapLoop_worded {user perm rootTable virAddr fuel va pa size : Nat} (h : Worded Owns s)
    (hu : user < 2 ^ 64) (hp : perm < 2 ^ 64) (hpa : pa < 2 ^ 64)
    (hrun : mapLoop A user perm rootTable virAddr fuel va pa size s = .done () s') :
    Worded Owns s' := by
  induction fuel generalizing va pa size s with
  | zero => cases hrun
  | succ fuel ih =>
    rw [mapLoop] at hrun
    split at hrun
    · obtain ⟨-, rfl⟩ := Outcome.done.inj hrun
      exact h
    split at hrun
    · obtain ⟨_, s₁, hleaf, hrest⟩ := Outcome.bind_eq_done.mp hrun
      exact ih (putLeaf_worded h hu hp hpa hleaf) (wrap_lt _) hrest
    split at hrun
    · obtain ⟨_, s₁, hmega, hrest⟩ := Outcome.bind_eq_done.mp hrun
      obtain ⟨_, s₂, htable, hleaf⟩ := Outcome.bind_eq_done.mp hmega
      exact ih (putLeaf_worded (ensureTable_worded hA h htable) hu hp hpa hleaf) (wrap_lt _) hrest
    · obtain ⟨_, s₁, hpage, hrest⟩ := Outcome.bind_eq_done.mp hrun
      obtain ⟨_, s₂, htable, hpage⟩ := Outcome.bind_eq_done.mp hpage
      obtain ⟨_, s₃, htable', hleaf⟩ := Outcome.bind_eq_done.mp hpage
      exact ih (putLeaf_worded (ensureTable_worded hA (ensureTable_worded hA h htable) htable') hu
        hp hpa hleaf) (wrap_lt _) hrest

/-- So does one call of `kvm_map` or `uvm_map`. -/
theorem mapRange_worded {user perm rootTable virAddr pa size : Nat} (h : Worded Owns s)
    (hu : user < 2 ^ 64) (hp : perm < 2 ^ 64) (hpa : pa < 2 ^ 64)
    (hrun : mapRange A user rootTable virAddr pa size perm s = .done () s') : Worded Owns s' :=
  mapLoop_worded hA h hu hp (Nat.lt_of_le_of_lt (andNot_le _ _) hpa) hrun

/-- So do the calls of a list. -/
theorem mapAll_worded {rootTable : Nat} {cs : List MapCall} (h : Worded Owns s)
    (hcs : ∀ c ∈ cs, c.perm < 2 ^ 64 ∧ c.physAddr < 2 ^ 64)
    (hrun : mapAll A rootTable cs s = .done () s') : Worded Owns s' := by
  induction cs generalizing s with
  | nil =>
    obtain ⟨-, rfl⟩ := Outcome.done.inj hrun
    exact h
  | cons c cs ih =>
    obtain ⟨_, s₁, hcall, hrest⟩ := Outcome.bind_eq_done.mp hrun
    obtain ⟨hp, hpa⟩ := hcs c List.mem_cons_self
    refine ih ?_ (fun d hd => hcs d (List.mem_cons_of_mem _ hd)) hrest
    unfold MapCall.exec at hcall
    split at hcall
    · exact mapRange_worded hA h (by decide) hp hpa hcall
    · exact mapRange_worded hA h (by decide) hp hpa hcall

/-- After `kvm_init` memory is one of words. -/
theorem kvmInit_worded {l : Layout} {root : Nat} (h : Worded Owns s) (hl : l.Proper)
    (hrun : kvmInit A l s = .done root s') : Worded Owns s' := by
  obtain ⟨page, s₁, hpage, hrest⟩ := Outcome.bind_eq_done.mp hrun
  obtain ⟨h₁, -⟩ := kallocPage_worded hA h hpage
  split at hrest
  · cases hrest
  obtain ⟨_, s₂, hall, hend⟩ := Outcome.bind_eq_done.mp hrest
  obtain ⟨-, rfl⟩ := Outcome.done.inj hend
  refine mapAll_worded hA h₁.zeros (fun c hc => ?_) hall
  have hplain := hl.plain c hc
  have hphys := hplain.physEnd
  have hperm : ∀ q ∈ leafPerms, q < 2 ^ 64 := by decide
  exact ⟨hperm _ hplain.perm, by omega⟩

/-- After `create_user_table` it is as well. -/
theorem createUserTable_worded {trampoline kstack table : Nat} (h : Worded Owns s)
    (ht : trampoline < 2 ^ 64) (hk : kstack < 2 ^ 64)
    (hrun : createUserTable A trampoline kstack s = .done table s') : Worded Owns s' := by
  obtain ⟨page, s₁, hpage, hrest⟩ := Outcome.bind_eq_done.mp hrun
  obtain ⟨h₁, -⟩ := kallocPage_worded hA h hpage
  obtain ⟨_, s₂, hcode, hrest⟩ := Outcome.bind_eq_done.mp hrest
  obtain ⟨_, s₃, hstack, hend⟩ := Outcome.bind_eq_done.mp hrest
  obtain ⟨-, rfl⟩ := Outcome.done.inj hend
  have h₂ := mapRange_worded hA h₁.zeros (by decide) (by decide) ht hcode
  exact mapRange_worded hA h₂ (by decide) (by decide) hk hstack

section Spawn

variable {binary : Nat → UInt8} {site : Site}

omit hA in
theorem permOf_lt (pFlags : Nat) : permOf pFlags < 2 ^ 64 := by
  unfold permOf
  split_ifs <;> decide

/-- Loading the segments leaves words. -/
theorem loadSegments_worded {userTable phentsize ph : Nat} (h : Worded Owns s)
    (hrun : loadSegments A binary userTable phentsize n ph s = .done () s') : Worded Owns s' := by
  induction n generalizing ph s with
  | zero =>
    obtain ⟨-, rfl⟩ := Outcome.done.inj hrun
    exact h
  | succ n ih =>
    obtain ⟨_, s₁, hone, hrest⟩ := Outcome.bind_eq_done.mp hrun
    refine ih ?_ hrest
    split at hone
    · unfold loadSegment at hone
      split at hone
      · cases hone
      obtain ⟨buff, s₂, hblock, hmap⟩ := Outcome.bind_eq_done.mp hone
      obtain ⟨h₂, hlt⟩ := kallocBlock_worded hA h hblock
      exact mapRange_worded hA h₂.copyLoop.zeroLoop (by decide) (permOf_lt _) hlt hmap
    · obtain ⟨-, rfl⟩ := Outcome.done.inj hone
      exact h

/-- So does the end of `spawn_process`. -/
theorem finishProcess_worded {tf userTable : Nat} {r : Option Nat} (h : Worded Owns s)
    (hrun : finishProcess A binary tf userTable s = .done r s') : Worded Owns s' := by
  obtain ⟨ustack, s₁, hblock, hrest⟩ := Outcome.bind_eq_done.mp hrun
  have hentry : Bytes.load binary 24 8 < 256 ^ 8 := Bytes.load_lt
  obtain ⟨h₁, hlt⟩ := kallocBlock_worded hA (h.store (hentry.trans_eq (by decide))) hblock
  obtain ⟨_, s₂, hmap, hrest⟩ := Outcome.bind_eq_done.mp hrest
  have h₂ := mapRange_worded hA h₁.zeros (by decide) (by decide) hlt hmap
  obtain ⟨caps, s₃, hblock, hend⟩ := Outcome.bind_eq_done.mp hrest
  obtain ⟨h₃, -⟩ := kallocBlock_worded hA (h₂.store (by decide)) hblock
  obtain ⟨-, rfl⟩ := Outcome.done.inj hend
  exact h₃.zeros

/-- What `spawn_process` copies into the trap frame are words. -/
def SiteWords (site : Site) : Prop :=
  site.sstatusVal < 2 ^ 64 ∧ site.rootTable < 2 ^ 64 ∧ site.strapRouter < 2 ^ 64 ∧
    site.runqueue < 2 ^ 64 ∧ site.userTrampoline < 2 ^ 64

omit hA in
/-- What goes into `satp` is a word. -/
theorem satpOf_lt {table : Nat} (ht : table < 2 ^ 64) : satpOf table < 2 ^ 64 := by
  refine Nat.or_lt_two_pow (by decide) ?_
  rw [Nat.shiftRight_eq_div_pow]
  omega

/-- So is the address of the table. -/
theorem createUserTable_lt {trampoline kstack table : Nat} (h : Worded Owns s)
    (hrun : createUserTable A trampoline kstack s = .done table s') : table < 2 ^ 64 := by
  obtain ⟨page, s₁, hpage, hrest⟩ := Outcome.bind_eq_done.mp hrun
  obtain ⟨_, s₂, -, hrest⟩ := Outcome.bind_eq_done.mp hrest
  obtain ⟨_, s₃, -, hend⟩ := Outcome.bind_eq_done.mp hrest
  obtain ⟨rfl, -⟩ := Outcome.done.inj hend
  exact (kallocPage_worded hA h hpage).2

/-- After `spawn_process` memory is one of words. -/
theorem spawnProcess_worded {r : Option Nat} (h : Worded Owns s) (hsite : SiteWords site)
    (hrun : spawnProcess A site binary s = .done r s') : Worded Owns s' := by
  obtain ⟨hstatus, hroot, hrouter, hqueue, htramp⟩ := hsite
  obtain ⟨stack, s₁, hblock, hrest⟩ := Outcome.bind_eq_done.mp hrun
  obtain ⟨h₁, hlt⟩ := kallocBlock_worded hA h hblock
  split at hrest
  · obtain ⟨-, rfl⟩ := Outcome.done.inj hrest
    exact h₁
  obtain ⟨table, s₂, htable, hrest⟩ := Outcome.bind_eq_done.mp hrest
  have hframe : Worded Owns (initTrapframe site
      (wrapSub (wrap (stack + 4096)) trapframeSize) s₁) :=
    ((((h₁.zeros.store hstatus).store (satpOf_lt hroot)).store hrouter).store (wrap_lt _)).store
      hqueue
  have h₂ := createUserTable_worded hA hframe htramp hlt htable
  dsimp only at hrest
  split at hrest
  · cases hrest
  obtain ⟨_, s₃, hload, hfinish⟩ := Outcome.bind_eq_done.mp hrest
  have h₃ := h₂.store (a := entryAt (wrapSub (wrap (stack + 4096)) trapframeSize) 37)
    (satpOf_lt (createUserTable_lt hA hframe htable))
  exact finishProcess_worded hA (loadSegments_worded hA h₃ hload) hfinish

end Spawn

end Routines

end RexOS.Loader
