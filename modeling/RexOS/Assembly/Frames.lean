import RexOS.Assembly.Text

/-!
# Trap frames

Both handlers of supervisor mode keep the interrupted code in a frame of the same form: the
registers at their places, then the address to go back to and the status.
-/

namespace RexOS.Assembly

open Riscv

variable {p : Platform Symbol} {K W S : Set Word} {Q : Hart → Memory → Prop}
  {h : Hart} {m m' : Memory} {d e base : Word} {is : Source}

/-- The frame at `base` keeps the registers `reg`, the address `pc` and the status `status`. -/
structure Holds (m : Memory) (base : Word) (reg : Reg → Word) (pc status : Word) : Prop where
  regs : ∀ r, m (base + place r) = reg r
  pc : m (base + 256) = pc
  status : m (base + 264) = status

/-- The first `n` doublewords of a frame. -/
def places (n : ℕ) : List Word := (List.range n).map fun k => 8 * BitVec.ofNat 64 k

/-- A frame of `n` doublewords, at `base` for the hart and in memory. -/
abbrev OwnFrame (p : Platform Symbol) (K W : Set Word) (h : Hart) (m : Memory) (va base : Word)
    (n : ℕ) : Prop :=
  Frame p K W h.mode (h.csr .satp) m va base (places n)

/-- The handler may use the registers of its mode. -/
theorem openTo_supervisor {c : Csr} (hmode : h.mode = .supervisor) (hc : c.supervisor = true) :
    c.openTo h.mode = true := by
  rw [hmode]
  exact hc

/-- Every register from 3 on has its place. -/
theorem mem_upper {r : Reg} (hr : 3 ≤ r) (d : Word) : (r, place r - d) ∈ upper d := by
  refine List.mem_map.mpr ⟨r - 3, List.mem_range.mpr (by omega), ?_⟩
  have hfin : Fin.ofNat 32 ((r : ℕ) - 3 + 3) = r := by
    apply Fin.ext
    have hr' : 3 ≤ (r : ℕ) := hr
    simp only [Fin.ofNat]
    omega
  rw [hfin]

/-- A check over a list of offsets. -/
theorem mem_places_of_all {offs : List Word} {n : ℕ}
    (h : offs.all (fun o => decide (o ∈ places n)) = true) : ∀ o ∈ offs, o ∈ places n := by
  simpa using h

/-- What a frame keeps, whatever happens outside of it. -/
theorem Holds.congr {reg : Reg → Word} {pc status : Word} (hh : Holds m base reg pc status)
    (hm : ∀ o ∈ places 34, m' (base + o) = m (base + o)) : Holds m' base reg pc status where
  regs r := by
    have hr : ∀ r : Reg, place r ∈ places 34 := by decide
    rw [hm _ (hr r), hh.regs r]
  pc := by rw [hm _ (by decide), hh.pc]
  status := by rw [hm _ (by decide), hh.status]

/-- The stores of a handler fill its frame. -/
theorem fill {i : Instr Symbol} (v : Word) (hK : K ⊆ W)
    (ha : Ahead p K S d h m (filling i ++ is) e) (hmode : h.mode = .supervisor)
    (hi : ∀ h' : Hart, h'.csr = h.csr → h'.mode = h.mode → h'.get sp = h.get sp →
      ∀ pa n m', p.exec i pa n h' m' = .ok ((h'.set 1 v).advance n, m'))
    (hf : OwnFrame p K W h m (h.get sp) base 34)
    (hl : ∀ h₁ m₁, Ahead p K S d h₁ m₁ is e → h₁.mode = .supervisor → h₁.csr = h.csr →
      (∀ r, r ≠ 1 → r ≠ t0 → h₁.get r = h.get r) →
      Holds m₁ base (fun r => if r = sp then v else h.get r) (h.csr .sepc) (h.read .sstatus) →
      Set.EqOn m₁ m K → (∀ w, (∀ o ∈ places 34, w ≠ base + o) → m₁ w = m w) →
      Leads p W Q h₁ m₁) :
    Leads p W Q h m := by
  have hne : ∀ {o o' : Word}, o ≠ o' → base + o ≠ base + o' := fun ho he =>
    ho (add_left_cancel he)
  rw [filling, List.append_assoc, List.cons_append, List.append_assoc] at ha
  -- `x0` and `x1`
  refine Leads.saves hK ha rfl
    (hf.mono (mem_places_of_all (by decide +kernel)) (Set.eqOn_refl m K)) (by decide)
    fun n m₁ ha hK₁ hin₁ hout₁ => ?_
  refine Leads.alu hK ha (hi (h.advance n) rfl rfl rfl _) fun n' ha => ?_
  -- the interrupted stack pointer and the registers above it
  refine Leads.saves hK ha rfl (hf.mono (mem_places_of_all (by decide +kernel)) hK₁)
    (by decide +kernel) fun n₂ m₂ ha hK₂ hin₂ hout₂ => ?_
  -- where to go back to, and the status
  have hf₂ := hf.mono (fun _ => id) (hK₂.trans hK₁)
  have hopen : ∀ c : Csr, c.supervisor = true → c.openTo h.mode = true := by
    intro c hc
    rw [hmode]
    exact hc
  refine Leads.csrr hK ha (hopen .sepc rfl) fun n₃ ha => ?_
  refine Leads.store hK ha (hf₂.reaches .store (by decide) 256 (by decide))
    (hf₂.apart 256 (by decide)) fun n₄ ha => ?_
  refine Leads.csrr hK ha (hopen .sstatus rfl) fun n₅ ha => ?_
  have hf₃ := hf.mono (fun _ => id)
    (hf.eqOn_store (hK₂.trans hK₁) 256 (by decide) (h.csr .sepc))
  refine Leads.store hK ha (hf₃.reaches .store (by decide) 264 (by decide))
    (hf₃.apart 264 (by decide)) fun n₆ ha => ?_
  have hlast : ∀ o, o ≠ 256 → o ≠ 264 →
      ((m₂.store (base + 256) (h.csr .sepc)).store (base + 264) (h.read .sstatus)) (base + o) =
        m₂ (base + o) := fun o h₁ h₂ => by
    rw [Memory.store_ne _ _ (hne h₂), Memory.store_ne _ _ (hne h₁)]
  have hnot : ∀ r : Reg, place r ≠ 256 ∧ place r ≠ 264 := by decide
  have hrest : ∀ r : Reg, r = 0 ∨ r = 1 →
      place r ∉ List.map Prod.snd (((1, 16) : Slot) :: upper 0) := by decide +kernel
  refine hl _ ((m₂.store (base + 256) (h.csr .sepc)).store (base + 264) (h.read .sstatus)) ha
    hmode rfl (fun r h1 h5 => ?_) ⟨fun r => ?_, ?_, ?_⟩
    (hf.eqOn_store (hf.eqOn_store (hK₂.trans hK₁) 256 (by decide) _) 264 (by decide) _)
    fun w hw => ?_
  · simp [Hart.get_set_ne _ h5, Hart.get_set_ne _ h1]
  · rw [hlast _ (hnot r).1 (hnot r).2]
    by_cases h3 : 3 ≤ r
    · have hr : r ≠ sp := fun he => absurd (he ▸ h3) (by decide)
      have hr1 : r ≠ 1 := fun he => absurd (he ▸ h3) (by decide)
      have hin := hin₂ (r, place r - 0) (List.mem_cons_of_mem _ (mem_upper h3 0))
      rw [if_neg hr, ← sub_zero (place r), hin]
      simp [Hart.get_set_ne _ hr1]
    · obtain rfl | hlow : r = sp ∨ (r = 0 ∨ r = 1) := by
        revert r
        decide
      · -- `x1` has it when the place is written
        rw [if_pos rfl]
        exact (hin₂ (1, 16) List.mem_cons_self).trans
          ((h.advance n).get_set_self (by decide) v)
      · rw [hout₂ _ fun o ho he =>
          hrest r hlow ((add_left_cancel he : place r = o) ▸ ho)]
        obtain rfl | rfl := hlow
        · exact hin₁ (0, 0) List.mem_cons_self
        · exact hin₁ (1, 8) (List.mem_cons_of_mem _ List.mem_cons_self)
  · rw [Memory.store_ne _ _ (hne (by decide)), Memory.store_self]
  · rw [Memory.store_self]
  · rw [Memory.store_ne _ _ (hw _ (by decide)), Memory.store_ne _ _ (hw _ (by decide)),
      hout₂ w fun o ho => hw o (mem_places_of_all (by decide +kernel) o ho),
      hout₁ w fun o ho => hw o (mem_places_of_all (by decide +kernel) o ho)]

/-- The loads of a handler take the registers back, the stack pointer apart. -/
theorem drain {reg : Reg → Word} {pc status : Word} (hK : K ⊆ W)
    (ha : Ahead p K S d h m (restores drained sp ++ is) e)
    (hf : OwnFrame p K W h m (h.get sp) base 34) (hh : Holds m base reg pc status)
    (hl : ∀ h₁, Ahead p K S d h₁ m is e → h₁.mode = h.mode → h₁.csr = h.csr →
      (∀ r, r ≠ 0 → r ≠ sp → h₁.get r = reg r) → h₁.get sp = h.get sp → Leads p W Q h₁ m) :
    Leads p W Q h m := by
  refine Leads.restores hK ha rfl
    (hf.mono (mem_places_of_all (by decide +kernel)) (Set.eqOn_refl m K)) (by decide +kernel)
    (by decide +kernel) fun n h₁ _ hmode hcsr hin hout ha => ?_
  refine hl h₁ ha hmode hcsr (fun r h0 h2 => ?_) (hout sp (by decide +kernel))
  rw [← hh.regs r]
  by_cases h3 : 3 ≤ r
  · refine (hin (r, place r - 0) (List.mem_append_left _ ?_) h0).trans ?_
    · exact List.mem_reverse.mpr (mem_upper h3 0)
    · rw [sub_zero]
  · obtain rfl : r = 1 := by
      revert r
      decide
    exact hin (1, 8) (List.mem_append_right _ List.mem_cons_self) h0

end RexOS.Assembly
