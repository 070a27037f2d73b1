import RexOS.Core.Riscv
import Mathlib.Data.Set.Function

/-!
# What code leads to while other harts run

Between two instructions of a hart the others may change memory, except at the words `W` that
are left to this hart for the time being. `Leads p W Q h m` says that from `h` and `m` the hart
gets to `Q` whatever they do: none of its instructions faults on the way, the way ends, and up
to its end the hart is in a privileged mode.

Code is described by where it lies and where it is fetched from. Translations rest on a set `K`
of words, those of the tables in force, and survive every change elsewhere.
-/

namespace Riscv

variable {σ : Type} {p : Platform σ} {W K S : Set Word} {Q R : Hart → Memory → Prop}
  {h h₁ : Hart} {m m' m₁ : Memory}

inductive Leads (p : Platform σ) (W : Set Word) (Q : Hart → Memory → Prop) :
    Hart → Memory → Prop
  | here {h : Hart} {m : Memory} (hq : ∀ m', Set.EqOn m' m W → Q h m') : Leads p W Q h m
  | step {h : Hart} {m : Memory} (hmode : h.mode ≠ .user)
      (hok : ∀ m', Set.EqOn m' m W → (p.step h m').isOk = true)
      (hs : ∀ m' h₁ m₁, Set.EqOn m' m W → p.step h m' = .ok (h₁, m₁) → Leads p W Q h₁ m₁) :
      Leads p W Q h m

namespace Leads

/-- The others may begin. -/
theorem interfere (hl : Leads p W Q h m) (hm : Set.EqOn m' m W) : Leads p W Q h m' := by
  cases hl with
  | here hq => exact here fun m₂ h₂ => hq m₂ (h₂.trans hm)
  | step hmode hok hs =>
    exact step hmode (fun m₂ h₂ => hok m₂ (h₂.trans hm)) fun m₂ _ _ h₂ => hs m₂ _ _ (h₂.trans hm)

/-- One piece of a path after the other. -/
theorem bind (hl : Leads p W Q h m) (hq : ∀ h m, Q h m → Leads p W R h m) :
    Leads p W R h m := by
  induction hl with
  | here hn => exact hq _ _ (hn _ (Set.eqOn_refl _ _))
  | step hmode hok _ ih => exact step hmode hok ih

/-- A path leads to anything weaker. -/
theorem mono (hl : Leads p W Q h m) (hq : ∀ h m, Q h m → R h m) : Leads p W R h m := by
  induction hl with
  | here hn => exact here fun m₂ h₂ => hq _ _ (hn m₂ h₂)
  | step hmode hok _ ih => exact step hmode hok ih

/-- A step that is the same for all that the others may have done. -/
theorem next (hmode : h.mode ≠ .user)
    (hs : ∀ m', Set.EqOn m' m W → ∃ m₂, p.step h m' = .ok (h₁, m₂) ∧ Set.EqOn m₂ m₁ W)
    (hl : Leads p W Q h₁ m₁) : Leads p W Q h m := by
  refine step hmode (fun m' hm => ?_) (fun m' h₂ m₂ hm he => ?_)
  · obtain ⟨m₂, he, -⟩ := hs m' hm
    rw [he]
    rfl
  · obtain ⟨m₃, he', hm₃⟩ := hs m' hm
    obtain ⟨rfl, rfl⟩ := Prod.mk.inj (Except.ok.inj (he.symm.trans he'))
    exact hl.interfere hm₃

end Leads

/-- A course of one hart among others, without end: what is not a step of its own leaves the hart
and `W` alone, and its own turn comes again and again. -/
structure Course (p : Platform σ) (W : Set Word) (s : ℕ → Hart × Memory) : Prop where
  moves : ∀ k, p.step (s k).1 (s k).2 = .ok (s (k + 1)) ∨
    (s (k + 1)).1 = (s k).1 ∧ Set.EqOn (s (k + 1)).2 (s k).2 W
  fair : ∀ k, ∃ n, k ≤ n ∧ p.step (s n).1 (s n).2 = .ok (s (n + 1))

/-- What a hart leads to is reached in every such course. -/
theorem Leads.reached {s : ℕ → Hart × Memory} (hc : Course p W s) {k : ℕ}
    (hl : Leads p W Q (s k).1 (s k).2) : ∃ n, k ≤ n ∧ Q (s n).1 (s n).2 := by
  suffices hgen : ∀ h m, Leads p W Q h m → ∀ k, (s k).1 = h → Set.EqOn (s k).2 m W →
      ∃ n, k ≤ n ∧ Q (s n).1 (s n).2 from hgen _ _ hl k rfl (Set.eqOn_refl _ _)
  clear hl k
  intro h m hl
  induction hl with
  | here hq => exact fun k hh hm => ⟨k, le_rfl, hh ▸ hq _ hm⟩
  | @step h m _ hok _ ih =>
    intro k hh hm
    obtain ⟨n, hkn, hn⟩ := hc.fair k
    -- up to its next turn the hart stays as it is
    obtain ⟨d, rfl⟩ := Nat.exists_eq_add_of_le hkn
    clear hkn
    induction d generalizing k with
    | zero =>
      obtain ⟨n, hle, hq⟩ := ih _ _ _ hm (hh ▸ hn) (k + 1) rfl (Set.eqOn_refl _ _)
      exact ⟨n, by omega, hq⟩
    | succ d ihd =>
      rcases hc.moves k with hown | ⟨hsame, hmem⟩
      · obtain ⟨n, hle, hq⟩ := ih _ _ _ hm (hh ▸ hown) (k + 1) rfl (Set.eqOn_refl _ _)
        exact ⟨n, by omega, hq⟩
      · have hn' : p.step (s (k + 1 + d)).1 (s (k + 1 + d)).2 = .ok (s (k + 1 + d + 1)) := by
          rwa [show k + 1 + d = k + (d + 1) by omega]
        obtain ⟨n, hle, hq⟩ := ihd (k + 1) (hsame.trans hh) (hmem.trans hm) hn'
        exact ⟨n, by omega, hq⟩

/-- A finite part of a course: privileged steps of the hart, and what the others do meanwhile. -/
inductive Path (p : Platform σ) (W : Set Word) : Hart → Memory → Hart → Memory → Prop
  | stay {h : Hart} {m : Memory} : Path p W h m h m
  | own {h h₁ h₂ : Hart} {m m₁ m₂ : Memory} (hmode : h.mode ≠ .user)
      (hs : p.step h m = .ok (h₁, m₁)) (hp : Path p W h₁ m₁ h₂ m₂) : Path p W h m h₂ m₂
  | others {h h₂ : Hart} {m m₁ m₂ : Memory} (hm : Set.EqOn m₁ m W)
      (hp : Path p W h m₁ h₂ m₂) : Path p W h m h₂ m₂

/-- Where privileged code leads to user mode, it leads to the first state in that mode. -/
theorem Leads.of_path {h₂ : Hart} {m₂ : Memory} (hp : Path p W h m h₂ m₂)
    (hl : Leads p W Q h m) (hQ : ∀ h m, Q h m → h.mode = .user) (hmode : h₂.mode = .user) :
    Q h₂ m₂ := by
  induction hp with
  | stay =>
    cases hl with
    | here hq => exact hq _ (Set.eqOn_refl _ _)
    | step hu => exact absurd hmode hu
  | own hu hs _ ih =>
    cases hl with
    | here hq => exact absurd (hQ _ _ (hq _ (Set.eqOn_refl _ _))) hu
    | step _ _ hnext => exact ih (hnext _ _ _ (Set.eqOn_refl _ _) hs) hmode
  | others hm _ ih => exact ih (hl.interfere hm) hmode

/-- What a hart leads to is at the end of some path. -/
theorem Leads.exists_path (hl : Leads p W Q h m) : ∃ h₂ m₂, Path p W h m h₂ m₂ ∧ Q h₂ m₂ := by
  induction hl with
  | @here h m hq => exact ⟨h, m, .stay, hq m (Set.eqOn_refl _ _)⟩
  | @step h m hmode hok _ ih =>
    cases hs : p.step h m with
    | error =>
      have hok := hok m (Set.eqOn_refl _ _)
      rw [hs] at hok
      cases hok
    | ok x =>
      obtain ⟨h₂, m₂, hp, hq⟩ := ih m x.1 x.2 (Set.eqOn_refl _ _) hs
      exact ⟨h₂, m₂, .own hmode hs hp, hq⟩

/-! ## User mode -/

/-- User mode has no control registers. -/
theorem csrOp_user {rd : Reg} {c : Csr} {g : Word → Word} {n : Word} (hmode : h.mode = .user)
    {x : Hart × Memory} : Platform.csrOp rd c g n h m ≠ .ok x := by
  rw [Platform.csrOp, hmode, if_neg (by simp [Csr.openTo])]
  exact nofun

/-- Both parts of a step go through. -/
theorem bind_eq_ok {α β ε : Type} {x : Except ε α} {g : α → Except ε β} {y : β}
    (hx : x >>= g = .ok y) : ∃ a, x = .ok a ∧ g a = .ok y := by
  cases x with
  | error => cases hx
  | ok a => exact ⟨a, rfl, hx⟩

/-- An instruction of user mode changes no control register, and of memory at most what user mode
may write. -/
theorem exec_user {i : Instr σ} {pa n : Word} (hmode : h.mode = .user)
    (hx : p.exec i pa n h m = .ok (h₁, m₁)) :
    h₁.mode = .user ∧ h₁.csr = h.csr ∧
      ∀ w, m₁ w ≠ m w → ∃ va, p.translate .store .user (h.csr .satp) m va = some w := by
  have hstore : ∀ {va a v : Word}, p.doubleword .store h m va = .ok a →
      ∀ w, Memory.store m a v w ≠ m w →
        ∃ va, p.translate .store .user (h.csr .satp) m va = some w := by
    intro va a v hd w hw
    obtain rfl : w = a := by
      by_contra hne
      exact hw (Memory.store_ne m v hne)
    refine ⟨va, ?_⟩
    rw [Platform.doubleword, hmode] at hd
    split at hd
    · split at hd
      · obtain rfl := Except.ok.inj hd
        assumption
      · cases hd
    · cases hd
  cases i with
  | csrrw | csrrs | csrrc =>
    rw [Platform.exec] at hx
    exact absurd hx (csrOp_user hmode)
  | ecall => cases hx
  | mret =>
    rw [Platform.exec, if_neg (by rw [hmode]; decide)] at hx
    cases hx
  | sret =>
    rw [Platform.exec, if_pos hmode] at hx
    cases hx
  | ld rd off b =>
    rw [Platform.exec] at hx
    obtain ⟨a, hd, hx⟩ := bind_eq_ok hx
    obtain ⟨rfl, rfl⟩ := Prod.mk.inj (Except.ok.inj hx)
    exact ⟨hmode, rfl, fun w hw => absurd rfl hw⟩
  | sd rs off b =>
    rw [Platform.exec] at hx
    obtain ⟨a, hd, hx⟩ := bind_eq_ok hx
    obtain ⟨rfl, rfl⟩ := Prod.mk.inj (Except.ok.inj hx)
    exact ⟨hmode, rfl, hstore hd⟩
  | amoswap rd rs b =>
    rw [Platform.exec] at hx
    obtain ⟨a, hd, hx⟩ := bind_eq_ok hx
    obtain ⟨rfl, rfl⟩ := Prod.mk.inj (Except.ok.inj hx)
    exact ⟨hmode, rfl, hstore hd⟩
  | beqz | bnez | bge =>
    obtain ⟨rfl, rfl⟩ := Prod.mk.inj (Except.ok.inj hx)
    refine ⟨?_, ?_, fun w hw => absurd rfl hw⟩ <;> split <;> first | rfl | exact hmode
  | _ =>
    obtain ⟨rfl, rfl⟩ := Prod.mk.inj (Except.ok.inj hx)
    exact ⟨hmode, rfl, fun w hw => absurd rfl hw⟩

/-- A step of user mode stays in user mode and stores through its own tables. -/
theorem step_user (hmode : h.mode = .user) (hx : p.step h m = .ok (h₁, m₁)) :
    h₁.mode = .user ∧ h₁.csr = h.csr ∧
      ∀ w, m₁ w ≠ m w → ∃ va, p.translate .store .user (h.csr .satp) m va = some w := by
  rw [Platform.step] at hx
  split at hx
  · cases hx
  · split at hx
    · cases hx
    · exact exec_user hmode hx

/-! ## Code -/

/-- The translation of `va`, whatever happens to memory outside `K`. -/
def Maps (p : Platform σ) (K : Set Word) (x : Access) (mode : Mode) (satp : Word) (m : Memory)
    (va pa : Word) : Prop :=
  ∀ m', Set.EqOn m' m K → p.translate x mode satp m' va = some pa

/-- A mapping holds in memory that agrees on the tables. -/
theorem Maps.congr {x : Access} {mode : Mode} {satp va pa : Word}
    (hv : Maps p K x mode satp m va pa) (hm : Set.EqOn m' m K) :
    Maps p K x mode satp m' va pa := fun m₂ h₂ => hv m₂ (h₂.trans hm)

/-- It holds if more words are known. -/
theorem Maps.mono {K' : Set Word} {x : Access} {mode : Mode} {satp va pa : Word}
    (hv : Maps p K x mode satp m va pa) (hK : K ⊆ K') : Maps p K' x mode satp m va pa :=
  fun m' hm => hv m' (hm.mono hK)

/-- What a function leaves to its caller, by the calling convention: from `h`, where it starts, to
`h₁`, where it returns. -/
structure Returned (h h₁ : Hart) : Prop where
  pc : h₁.pc = h.get ra
  mode : h₁.mode = h.mode
  satp : h₁.csr .satp = h.csr .satp
  saved : ∀ r ∈ [sp, s0, s1, s2, s3, s4, s5, s6, s7, s8, s9, s10, s11], h₁.get r = h.get r

/-- The instructions fetched from `va` on, at addresses in `S` and `d` above where they lie; `e` is
the address behind. -/
def Text (p : Platform σ) (S : Set Word) (d : Word) :
    (va : Word) → List (Instr σ) → (e : Word) → Prop
  | va, [], e => va = e
  | va, i :: is, e => va ∈ S ∧ ∃ n, p.code (va - d) = some (i, n) ∧ Text p S d (va + n) is e

/-- A text depends on the code alone. -/
theorem Text.congr {q : Platform σ} {S S' : Set Word} {d va e : Word} {is : List (Instr σ)}
    (h : Text p S d va is e) (hc : q.code = p.code) (hS : S ⊆ S') : Text q S' d va is e := by
  induction is generalizing va with
  | nil => exact h
  | cons i is ih =>
    obtain ⟨hva, n, hcode, ht⟩ := h
    exact ⟨hS hva, n, hc ▸ hcode, ih ht⟩

/-- A part of a text of instructions of four bytes. -/
theorem text_of_code {d base : Word} {all pre is post : List (Instr σ)}
    (h : all = pre ++ (is ++ post))
    (hc : ∀ k (hk : k < all.length), p.code (base + 4 * BitVec.ofNat 64 k - d) = some (all[k], 4))
    (hS : ∀ k < all.length, base + 4 * BitVec.ofNat 64 k ∈ S) :
    Text p S d (base + 4 * BitVec.ofNat 64 pre.length) is
      (base + 4 * BitVec.ofNat 64 (pre.length + is.length)) := by
  induction is generalizing pre with
  | nil => rfl
  | cons i is ih =>
    have hlen : pre.length < all.length := by
      rw [h, List.length_append, List.cons_append, List.length_cons]
      omega
    have hnext : base + 4 * BitVec.ofNat 64 pre.length + 4 =
        base + 4 * BitVec.ofNat 64 (pre.length + 1) := by
      rw [BitVec.ofNat_add, mul_add, add_assoc]
      rfl
    refine ⟨hS _ hlen, 4, ?_, ?_⟩
    · have hget : all[pre.length] = i := by simp [h]
      rw [hc _ hlen, hget]
    · have ht := @ih (pre ++ [i]) (by simp [h])
      rw [List.length_append, List.length_singleton, ← hnext] at ht
      rwa [List.length_cons, Nat.add_comm is.length, ← Nat.add_assoc]

/-- Code at addresses in `S` is fetched from `d` below. -/
def Fetched (p : Platform σ) (K S : Set Word) (d : Word) (mode : Mode) (satp : Word) (m : Memory) :
    Prop :=
  ∀ va ∈ S, Maps p K .fetch mode satp m va (va - d)

/-- Text is fetched in memory that agrees on the tables. -/
theorem Fetched.congr {S : Set Word} {d satp : Word} {mode : Mode}
    (hf : Fetched p K S d mode satp m) (hm : Set.EqOn m' m K) : Fetched p K S d mode satp m' :=
  fun va hva => (hf va hva).congr hm

/-- The privileged code that a hart comes to next. -/
structure Ahead (p : Platform σ) (K S : Set Word) (d : Word) (h : Hart) (m : Memory)
    (is : List (Instr σ)) (e : Word) : Prop where
  mode : h.mode ≠ .user
  text : Text p S d h.pc is e
  fetched : Fetched p K S d h.mode (h.csr .satp) m

/-- A doubleword that the hart reaches by a register and an offset. -/
structure Reaches (p : Platform σ) (K : Set Word) (x : Access) (mode : Mode) (satp : Word)
    (m : Memory) (va pa : Word) : Prop where
  aligned : 8 ∣ va.toNat
  maps : Maps p K x mode satp m va pa

/-- An access that is reached goes through. -/
theorem Reaches.doubleword {x : Access} {va pa : Word}
    (hr : Reaches p K x h.mode (h.csr .satp) m va pa) (hm : Set.EqOn m' m K) :
    p.doubleword x h m' va = .ok pa := by
  rw [Platform.doubleword, if_pos hr.aligned, hr.maps m' hm]

namespace Leads

variable {d e : Word} {i : Instr σ} {is : List (Instr σ)}

/-- One instruction of the path. -/
theorem instr {pa n : Word} (hmode : h.mode ≠ .user) (hK : K ⊆ W) (hc : p.code pa = some (i, n))
    (hf : Maps p K .fetch h.mode (h.csr .satp) m h.pc pa)
    (hx : ∀ m', Set.EqOn m' m W →
      ∃ m₂, p.exec i pa n h m' = .ok (h₁, m₂) ∧ Set.EqOn m₂ m₁ W)
    (hl : Leads p W Q h₁ m₁) : Leads p W Q h m := by
  refine next hmode (fun m' hm => ?_) hl
  obtain ⟨m₂, he, hm₂⟩ := hx m' hm
  refine ⟨m₂, ?_, hm₂⟩
  rw [Platform.step, hf m' (hm.mono hK)]
  simp only [hc, he]

/-- An instruction that is about registers alone. -/
theorem regs (hK : K ⊆ W) (ha : Ahead p K S d h m (i :: is) e) (f : Word → Hart)
    (hx : ∀ n m', p.exec i (h.pc - d) n h m' = .ok (f n, m')) (hpc : ∀ n, (f n).pc = h.pc + n)
    (hmode : ∀ n, (f n).mode = h.mode) (hsatp : ∀ n, (f n).csr .satp = h.csr .satp)
    (hl : ∀ n, Ahead p K S d (f n) m is e → Leads p W Q (f n) m) : Leads p W Q h m := by
  obtain ⟨hu, ⟨hva, n, hc, ht⟩, hf⟩ := ha
  refine instr hu hK hc (hf _ hva) (fun m' hm => ⟨m', hx n m', hm⟩) (hl n ⟨?_, ?_, ?_⟩)
  · rwa [hmode]
  · rwa [hpc]
  · rwa [hmode, hsatp]

/-- An instruction whose one effect is a value in a register. -/
theorem alu {rd : Reg} {v : Word} (hK : K ⊆ W) (ha : Ahead p K S d h m (i :: is) e)
    (hx : ∀ n m', p.exec i (h.pc - d) n h m' = .ok ((h.set rd v).advance n, m'))
    (hl : ∀ n, Ahead p K S d ((h.set rd v).advance n) m is e →
      Leads p W Q ((h.set rd v).advance n) m) : Leads p W Q h m :=
  regs hK ha (fun n => (h.set rd v).advance n) hx (fun _ => rfl) (fun _ => rfl) (fun _ => rfl) hl

/-- A symbol is found as far from where it was linked as the code that names it. -/
theorem la {rd : Reg} {y : σ} (hK : K ⊆ W) (ha : Ahead p K S d h m (.la rd y :: is) e)
    (hl : ∀ n, Ahead p K S d ((h.set rd (p.symbol y + d)).advance n) m is e →
      Leads p W Q ((h.set rd (p.symbol y + d)).advance n) m) : Leads p W Q h m := by
  refine alu hK ha (fun n m' => ?_) hl
  have htarget : h.pc + (p.symbol y - (h.pc - d)) = p.symbol y + d := by
    rw [sub_sub_eq_add_sub, add_sub_cancel]
  exact congrArg (fun v => Except.ok ((h.set rd v).advance n, m')) htarget

/-- A move. -/
theorem mv {rd rs : Reg} (hK : K ⊆ W) (ha : Ahead p K S d h m (.mv rd rs :: is) e)
    (hl : ∀ n, Ahead p K S d ((h.set rd (h.get rs)).advance n) m is e →
      Leads p W Q ((h.set rd (h.get rs)).advance n) m) : Leads p W Q h m := by
  refine alu hK ha (fun _ _ => rfl) ?_
  rwa [add_zero]

/-- A fence changes nothing here. -/
theorem fence (hK : K ⊆ W) (ha : Ahead p K S d h m (.fence :: is) e)
    (hl : ∀ n, Ahead p K S d (h.advance n) m is e → Leads p W Q (h.advance n) m) :
    Leads p W Q h m :=
  regs hK ha h.advance (fun _ _ => rfl) (fun _ => rfl) (fun _ => rfl) (fun _ => rfl) hl

/-- A load of a known word. -/
theorem load {rd b : Reg} {off a : Word} (hK : K ⊆ W)
    (ha : Ahead p K S d h m (.ld rd off b :: is) e)
    (hr : Reaches p K .load h.mode (h.csr .satp) m (h.get b + off) a) (hW : a ∈ W)
    (hl : ∀ n, Ahead p K S d ((h.set rd (m a)).advance n) m is e →
      Leads p W Q ((h.set rd (m a)).advance n) m) : Leads p W Q h m := by
  obtain ⟨hu, ⟨hva, n, hc, ht⟩, hf⟩ := ha
  refine instr hu hK hc (hf _ hva) (fun m' hm => ⟨m', ?_, hm⟩) (hl n ⟨hu, ht, hf⟩)
  rw [Platform.exec, hr.doubleword (hm.mono hK), ← hm hW]
  rfl

/-- A store beside the tables. -/
theorem store {rs b : Reg} {off a : Word} (hK : K ⊆ W)
    (ha : Ahead p K S d h m (.sd rs off b :: is) e)
    (hr : Reaches p K .store h.mode (h.csr .satp) m (h.get b + off) a) (hKa : a ∉ K)
    (hl : ∀ n, Ahead p K S d (h.advance n) (m.store a (h.get rs)) is e →
      Leads p W Q (h.advance n) (m.store a (h.get rs))) : Leads p W Q h m := by
  obtain ⟨hu, ⟨hva, n, hc, ht⟩, hf⟩ := ha
  refine instr hu hK hc (hf _ hva)
    (fun m' hm => ⟨Memory.store m' a (h.get rs), ?_, fun w hw => ?_⟩) (hl n ⟨hu, ht, ?_⟩)
  · rw [Platform.exec, hr.doubleword (hm.mono hK)]
    rfl
  · unfold Memory.store
    split
    · rfl
    · exact hm hw
  · exact hf.congr fun w hw => Memory.store_ne m _ fun he => hKa (he ▸ hw)

/-- A control register is read. -/
theorem csrr {rd : Reg} {c : Csr} (hK : K ⊆ W) (ha : Ahead p K S d h m (.csrr rd c :: is) e)
    (hc : c.openTo h.mode = true)
    (hl : ∀ n, Ahead p K S d ((h.set rd (h.read c)).advance n) m is e →
      Leads p W Q ((h.set rd (h.read c)).advance n) m) : Leads p W Q h m := by
  refine regs hK ha (fun n => (h.set rd (h.read c)).advance n) (fun n m' => ?_) (fun _ => rfl)
    (fun _ => rfl) (fun _ => rfl) hl
  have hsame : h.read c ||| h.get zero = h.read c := by simp
  rw [Platform.exec, Platform.csrOp, if_pos hc, hsame, h.write_read]

/-- A control register is written, `satp` apart. -/
theorem csrw {rs : Reg} {c : Csr} (hK : K ⊆ W) (ha : Ahead p K S d h m (.csrw c rs :: is) e)
    (hc : c.openTo h.mode = true) (hsatp : c ≠ .satp)
    (hl : ∀ n, Ahead p K S d ((h.write c (h.get rs)).advance n) m is e →
      Leads p W Q ((h.write c (h.get rs)).advance n) m) : Leads p W Q h m := by
  refine regs hK ha (fun n => (h.write c (h.get rs)).advance n) (fun n m' => ?_) (fun n => ?_)
    (fun n => ?_) (fun n => ?_) hl
  · rw [Platform.exec, Platform.csrOp, if_pos hc, Hart.set_zero]
  · cases c <;> rfl
  · cases c <;> rfl
  · cases c <;> first | rfl | exact absurd rfl hsatp

/-- `satp` is written: what follows is found through other tables. -/
theorem csrw_satp {rs : Reg} {K' : Set Word} (hK : K ⊆ W)
    (ha : Ahead p K S d h m (.csrw .satp rs :: is) e) (hc : Csr.openTo .satp h.mode = true)
    (hf' : Fetched p K' S d h.mode (h.get rs) m)
    (hl : ∀ n, Ahead p K' S d ((h.write .satp (h.get rs)).advance n) m is e →
      Leads p W Q ((h.write .satp (h.get rs)).advance n) m) : Leads p W Q h m := by
  obtain ⟨hu, ⟨hva, n, hcode, ht⟩, hf⟩ := ha
  refine instr hu hK hcode (hf _ hva) (fun m' hm => ⟨m', ?_, hm⟩) (hl n ⟨hu, ht, hf'⟩)
  rw [Platform.exec, Platform.csrOp, if_pos hc, Hart.set_zero]

/-- A jump, or the last instruction of a text. -/
theorem jump (hK : K ⊆ W) (ha : Ahead p K S d h m (i :: is) e) (f : Word → Hart)
    (hx : ∀ n m', p.exec i (h.pc - d) n h m' = .ok (f n, m'))
    (hl : ∀ n, Text p S d (h.pc + n) is e → Leads p W Q (f n) m) : Leads p W Q h m := by
  obtain ⟨hu, ⟨hva, n, hcode, ht⟩, hf⟩ := ha
  exact instr hu hK hcode (hf _ hva) (fun m' hm => ⟨m', hx n m', hm⟩) (hl n ht)

end Leads

/-! ## Frames -/

/-- A register and its place in a frame. -/
abbrev Slot := Reg × Word

/-- The stores that fill a frame. -/
def saves (F : List Slot) (b : Reg) : List (Instr σ) := F.map fun x => .sd x.1 x.2 b

/-- The loads that read it back. -/
def restores (F : List Slot) (b : Reg) : List (Instr σ) := F.map fun x => .ld x.1 x.2 b

/-- The places of a frame lie at physical addresses from `base` on, in the words left to the hart
and outside the tables. -/
structure Frame (p : Platform σ) (K W : Set Word) (mode : Mode) (satp : Word) (m : Memory)
    (va base : Word) (offs : List Word) : Prop where
  reaches : ∀ x, x ≠ .fetch → ∀ off ∈ offs,
    Reaches p K x mode satp m (va + off) (base + off)
  own : ∀ off ∈ offs, base + off ∈ W
  apart : ∀ off ∈ offs, base + off ∉ K

/-- The tables stay when a place of the frame is written. -/
theorem Frame.eqOn_store {mode : Mode} {satp va base : Word} {offs : List Word}
    (hf : Frame p K W mode satp m va base offs) (hm : Set.EqOn m₁ m' K) (off : Word)
    (ho : off ∈ offs) (v : Word) : Set.EqOn (Memory.store m₁ (base + off) v) m' K := by
  intro w hw
  have hne : w ≠ base + off := fun he => hf.apart off ho (he ▸ hw)
  rw [Memory.store_ne m₁ v hne]
  exact hm hw

/-- A frame has any part of it. -/
theorem Frame.mono {mode : Mode} {satp va base : Word} {offs offs' : List Word}
    (hf : Frame p K W mode satp m va base offs) (ho : ∀ o ∈ offs', o ∈ offs)
    (hm : Set.EqOn m' m K) : Frame p K W mode satp m' va base offs' where
  reaches x hx o h :=
    have hr := hf.reaches x hx o (ho o h)
    ⟨hr.aligned, hr.maps.congr hm⟩
  own o h := hf.own o (ho o h)
  apart o h := hf.apart o (ho o h)

namespace Leads

variable {d e va base : Word} {is : List (Instr σ)} {b : Reg} {F : List Slot}

/-- A series of stores into a frame. -/
theorem saves (hK : K ⊆ W) (ha : Ahead p K S d h m (saves F b ++ is) e) (hva : h.get b = va)
    (hf : Frame p K W h.mode (h.csr .satp) m va base (F.map Prod.snd))
    (hnd : (F.map Prod.snd).Nodup)
    (hl : ∀ n m₁, Ahead p K S d (h.advance n) m₁ is e → Set.EqOn m₁ m K →
      (∀ x ∈ F, m₁ (base + x.2) = h.get x.1) →
      (∀ w, (∀ o ∈ F.map Prod.snd, w ≠ base + o) → m₁ w = m w) → Leads p W Q (h.advance n) m₁) :
    Leads p W Q h m := by
  induction F generalizing h m with
  | nil =>
    have hadv : h.advance 0 = h := by simp [Hart.advance]
    have hl := hl 0 m
    rw [hadv] at hl
    exact hl ha (Set.eqOn_refl _ _) (fun x hx => absurd hx List.not_mem_nil) fun _ _ => rfl
  | cons x F ih =>
    obtain ⟨r, off⟩ := x
    have hoff : off ∈ List.map Prod.snd ((r, off) :: F) := List.mem_cons_self
    rw [List.map_cons, List.nodup_cons] at hnd
    refine store hK ha (hva ▸ hf.reaches .store (by decide) _ hoff) (hf.apart _ hoff)
      fun n ha => ?_
    have hmem : Set.EqOn (m.store (base + off) (h.get r)) m K :=
      hf.eqOn_store (Set.eqOn_refl _ _) off hoff _
    refine ih ha hva (hf.mono (fun _ => List.mem_cons_of_mem _) hmem) hnd.2
      fun n' m₁ ha hK₁ hin hout => ?_
    have hpc : (h.advance n).advance n' = h.advance (n + n') := by
      simp [Hart.advance, add_assoc]
    rw [hpc] at ha ⊢
    refine hl _ m₁ ha (hK₁.trans hmem) (fun x hx => ?_) fun w hw => ?_
    · rcases List.mem_cons.mp hx with rfl | hx
      · -- no later store hits this place
        rw [hout, Memory.store_self]
        exact fun o ho he => hnd.1 (add_left_cancel he ▸ ho)
      · exact hin x hx
    · rw [hout w fun o ho => hw o (List.mem_cons_of_mem _ ho), Memory.store_ne m _ (hw off hoff)]

/-- A series of loads from it. -/
theorem restores (hK : K ⊆ W) (ha : Ahead p K S d h m (restores F b ++ is) e)
    (hva : h.get b = va) (hf : Frame p K W h.mode (h.csr .satp) m va base (F.map Prod.snd))
    (hb : b ∉ F.map Prod.fst) (hnd : (F.map Prod.fst).Nodup)
    (hl : ∀ n h₁, h₁.pc = h.pc + n → h₁.mode = h.mode → h₁.csr = h.csr →
      (∀ x ∈ F, x.1 ≠ 0 → h₁.get x.1 = m (base + x.2)) →
      (∀ r, r ∉ F.map Prod.fst → h₁.get r = h.get r) →
      Ahead p K S d h₁ m is e → Leads p W Q h₁ m) :
    Leads p W Q h m := by
  induction F generalizing h with
  | nil => exact hl 0 h (by simp) rfl rfl (by simp) (fun _ _ => rfl) ha
  | cons x F ih =>
    obtain ⟨r, off⟩ := x
    have hoff : off ∈ List.map Prod.snd ((r, off) :: F) := List.mem_cons_self
    rw [List.map_cons, List.nodup_cons] at hnd
    rw [List.map_cons, List.mem_cons, not_or] at hb
    refine load hK ha (hva ▸ hf.reaches .load (by decide) _ hoff) (hf.own _ hoff) fun n ha => ?_
    refine ih ha ?_ (hf.mono (fun _ => List.mem_cons_of_mem _) (Set.eqOn_refl _ _)) hb.2 hnd.2
      fun n' h₁ hpc hmode hcsr hin hout ha => ?_
    · rw [Hart.get_advance, Hart.get_set_ne _ hb.1, hva]
    · refine hl (n + n') h₁ ?_ hmode hcsr (fun x hx hx0 => ?_) (fun q hq => ?_) ha
      · rw [hpc, ← add_assoc]
        rfl
      · rcases List.mem_cons.mp hx with rfl | hx
        · rw [hout _ hnd.1, Hart.get_advance, Hart.get_set_self _ hx0]
        · exact hin x hx hx0
      · rw [List.map_cons, List.mem_cons, not_or] at hq
        rw [hout _ hq.2, Hart.get_advance, Hart.get_set_ne _ hq.1]

end Leads

/-! ## A handler that cannot be fetched -/

/-- One turn of a hart whose faults are the supervisor's to handle. -/
def Platform.turn (p : Platform σ) (x : Hart × Memory) : Hart × Memory :=
  match p.step x.1 x.2 with
  | .ok y => y
  | .error f => (x.1.trapS f, x.2)

/-- A course of such a hart, faults included, among others who leave `K` alone. -/
def Turns (p : Platform σ) (K : Set Word) (s : ℕ → Hart × Memory) : Prop :=
  ∀ k, s (k + 1) = p.turn (s k) ∨ (s (k + 1)).1 = (s k).1 ∧ Set.EqOn (s (k + 1)).2 (s k).2 K

/-- At the handler that `h` has, with its registers. -/
structure AtHandler (h h₁ : Hart) : Prop where
  pc : h₁.pc = h.csr .stvec
  mode : h₁.mode = .supervisor
  vector : h₁.csr .stvec = h.csr .stvec
  satp : h₁.csr .satp = h.csr .satp
  regs : h₁.get = h.get

/-- A trap comes to the handler. -/
theorem atHandler_trapS (h : Hart) (f : Fault) : AtHandler h (h.trapS f) :=
  ⟨rfl, rfl, rfl, rfl, rfl⟩

/-- The hart never carries out an instruction again: each turn is one more fault. -/
theorem Turns.lost {s : ℕ → Hart × Memory} (hs : Turns p K s)
    (hun : ∀ m', Set.EqOn m' m K →
      p.walk .fetch .supervisor (h.csr .satp) m' (h.csr .stvec) = none)
    (h₀ : AtHandler h (s 0).1) (hm : Set.EqOn (s 0).2 m K) (k : ℕ) :
    AtHandler h (s k).1 ∧ p.step (s k).1 (s k).2 = .error ⟨12, h.csr .stvec⟩ := by
  have hstep : ∀ h₁ m', AtHandler h h₁ → Set.EqOn m' m K →
      p.step h₁ m' = .error ⟨12, h.csr .stvec⟩ := by
    intro h₁ m' hat hm'
    rw [Platform.step, Platform.translate, hat.mode, if_neg (by decide), hat.satp, hat.pc,
      hun m' hm']
    rfl
  suffices hinv : AtHandler h (s k).1 ∧ Set.EqOn (s k).2 m K from
    ⟨hinv.1, hstep _ _ hinv.1 hinv.2⟩
  induction k with
  | zero => exact ⟨h₀, hm⟩
  | succ k ih =>
    obtain ⟨hat, hmem⟩ := ih
    rcases hs k with hown | ⟨hsame, hother⟩
    · rw [hown, Platform.turn, hstep _ _ hat hmem]
      exact ⟨⟨hat.vector, rfl, hat.vector, hat.satp, hat.regs⟩, hmem⟩
    · rw [hsame]
      exact ⟨hat, hother.trans hmem⟩

end Riscv
