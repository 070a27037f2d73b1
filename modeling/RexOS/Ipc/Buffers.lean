import RexOS.Core.Bytes
import RexOS.Ipc.Exchange
import RexOS.Paging.PageHits

/-!
# Messages in a memory of bytes

The message calls with memory as the hardware has it: bytes, the tables and the buffers among
them. Both copies translate the first address of a buffer and go on from there in physical
memory, so they hit a buffer in two pages only as far as the frames lie next to each other.
-/

namespace RexOS.Ipc

open Bits Scheduler Paging Kernel

/-- The scheduler, and memory in bytes. -/
structure Board where
  kernel : Kernel
  bytes : Nat → UInt8

/-- What may happen. -/
inductive Act where
  | user (regs : Nat → Nat) (epc : Nat) (bytes : Nat → UInt8) (rights : Nat → Nat → Nat)
  | sendMsg
  | recvMsg
  | call (c : Call)

/-- The loop that copies a message out of a mailbox. -/
def putMessage (bytes : Nat → UInt8) (physAddr : Nat) (mailbox : Nat → Nat) : Nat → UInt8 :=
  (List.range 9).foldl (fun m i => Bytes.store m (wrap (physAddr + 8 * i)) (mailbox i) 8) bytes

namespace Board

variable (b : Board)

/-- The word at an address. -/
def words (addr : Nat) : Nat := Bytes.load b.bytes addr 8

/-- Memory in words, and nothing noted of the calls before. -/
def system : System where
  kernel := b.kernel
  mem := b.words
  sent := fun _ => []
  received := fun _ => []
  copied := fun _ => none

/-- Where a send of the running process reads. -/
def sendAddr : Nat :=
  let p := b.kernel.procs (b.kernel.curr 0)
  uvmTranslate b.words p.satp (p.tf.uContext 11)

/-- Where a receive of the running process writes. -/
def recvAddr : Nat :=
  let p := b.kernel.procs (b.kernel.curr 0)
  uvmTranslate b.words p.satp (p.tf.uContext 10)

/-- Memory after a receive. -/
def received : Nat → UInt8 :=
  let p := b.kernel.procs (b.kernel.curr 0)
  if b.recvAddr = 0 then b.bytes
  else if p.mailboxStatus = 0 then b.bytes
  else putMessage b.bytes b.recvAddr p.mailbox

/-- One act, where it can happen; `none` if the kernel stops. -/
def step : Act → Option Board
  | .user regs epc bytes rights =>
    (b.system.step (.user regs epc b.words rights)).map fun s => ⟨s.kernel, bytes⟩
  | .sendMsg => (b.system.step .sendMsg).map fun s => ⟨s.kernel, b.bytes⟩
  | .recvMsg => (b.system.step .recvMsg).map fun s => ⟨s.kernel, b.received⟩
  | .call c => (b.system.step (.call c)).map fun s => ⟨s.kernel, b.bytes⟩

/-- The act as an event of the message system. -/
def event : Act → Event
  | .user regs epc _ rights => .user regs epc b.words rights
  | .sendMsg => .sendMsg
  | .recvMsg => .recvMsg
  | .call c => .call c

end Board

variable {b b' b₁ b₂ b₃ b₄ : Board} {a i k : Nat} {act : Act} {v : Place → List Nat}
  {m bytes : Nat → UInt8} {mailbox : Nat → Nat} {physAddr : Nat} {src dst : Nat → Nat}
  {g : List (Board × Act)}

/-- A step of the board is one of the message system. -/
theorem Board.step_system (h : b.step act = some b') :
    ∃ s', b.system.step (b.event act) = some s' ∧ s'.kernel = b'.kernel := by
  cases act <;>
  · obtain ⟨s', hs', he⟩ := Option.map_eq_some_iff.mp h
    exact ⟨s', hs', congrArg Board.kernel he⟩

/-- Every step of the board keeps it sound. -/
theorem Board.sound_step (hs : Sound b.kernel v) (h : b.step act = some b') :
    ∃ v', Sound b'.kernel v' := by
  obtain ⟨s', hs', he⟩ := Board.step_system h
  rw [← he]
  exact Ipc.sound_step (s := b.system) hs hs'

/-! ## The copy -/

/-- One word of the message more. -/
theorem putMessage_succ (n : Nat) :
    (List.range (n + 1)).foldl
      (fun m i => Bytes.store m (wrap (physAddr + 8 * i)) (mailbox i) 8) bytes =
    Bytes.store ((List.range n).foldl
      (fun m i => Bytes.store m (wrap (physAddr + 8 * i)) (mailbox i) 8) bytes)
      (wrap (physAddr + 8 * n)) (mailbox n) 8 := by
  rw [List.range_succ, List.foldl_append, List.foldl_cons, List.foldl_nil]

/-- Byte `k` of the message lies `k` bytes behind the first. -/
theorem putMessage_self (hk : k < 72) :
    putMessage bytes physAddr mailbox (wrap (physAddr + k)) =
      Bytes.byteOf (mailbox (k / 8)) (k % 8) := by
  have hloop : ∀ n ≤ 9, k < 8 * n → (List.range n).foldl
      (fun m i => Bytes.store m (wrap (physAddr + 8 * i)) (mailbox i) 8) bytes
      (wrap (physAddr + k)) = Bytes.byteOf (mailbox (k / 8)) (k % 8) := by
    intro n hn hkn
    induction n with
    | zero => exact absurd hkn (Nat.not_lt_zero k)
    | succ n ih =>
      rw [putMessage_succ]
      by_cases hlast : 8 * n ≤ k
      · have hq : k / 8 = n := by omega
        have hat : wrap (physAddr + k) = wrap (wrap (physAddr + 8 * n) + k % 8) := by
          unfold wrap
          omega
        rw [hat, Bytes.store_self (by decide) (Nat.mod_lt k (by decide)), hq]
      · rw [Bytes.store_of_ne]
        · exact ih (by omega) (by omega)
        · intro i hi
          unfold wrap
          omega
  exact hloop 9 le_rfl hk

/-- The copy writes 72 bytes and no more. -/
theorem putMessage_of_ne {x : Nat} (h : ∀ k < 72, x ≠ wrap (physAddr + k)) :
    putMessage bytes physAddr mailbox x = bytes x := by
  have hloop : ∀ n ≤ 9, (List.range n).foldl
      (fun m i => Bytes.store m (wrap (physAddr + 8 * i)) (mailbox i) 8) bytes x = bytes x := by
    intro n hn
    induction n with
    | zero => rfl
    | succ n ih =>
      rw [putMessage_succ, Bytes.store_of_ne]
      · exact ih (by omega)
      · intro i hi
        have hne := h (8 * n + i) (by omega)
        unfold wrap at hne ⊢
        omega
  exact hloop 9 le_rfl

/-! ## A message in its mailbox -/

/-- A full mailbox stays as it is. -/
def Keeps (a : Nat) (k k' : Kernel) : Prop :=
  (k.procs a).mailboxStatus ≠ 0 → (k'.procs a).mailboxStatus = (k.procs a).mailboxStatus ∧
    (k'.procs a).mailbox = (k.procs a).mailbox

/-- Scheduling keeps the mailbox. -/
theorem Keeps.carried {W : Nat → ProcState → Prop} {k k' : Kernel} (h : Carried W k k') :
    Keeps a k k' := fun _ => ⟨carried_status h a, carried_mailbox h a⟩

/-- A store that leaves the mailbox of `a` alone, and what follows it. -/
theorem Keeps.modify {W : Nat → ProcState → Prop} {k k' : Kernel} {t : Nat} {f : Process → Process}
    (h : Carried W (k.modify t f) k')
    (hf : t = a → (f (k.procs a)).mailboxStatus = (k.procs a).mailboxStatus ∧
      (f (k.procs a)).mailbox = (k.procs a).mailbox) : Keeps a k k' := by
  intro _
  rw [carried_status h, carried_mailbox h, procs_modify]
  split
  · rename_i he
    subst he
    exact hf rfl
  · exact ⟨rfl, rfl⟩

/-- Whatever happens but a receive of its own leaves a process its message. -/
theorem keeps_step (hs : Sound b.kernel v) (h : b.step act = some b')
    (hown : act = .recvMsg → b.kernel.curr 0 ≠ a) : Keeps a b.kernel b'.kernel := by
  obtain ⟨s', hstep, hk⟩ := Board.step_system h
  rw [← hk]
  intro hfull
  have henter := carried_enter (W := fun _ _ => False) b.system
  have hfull' : (b.system.enter.kernel.procs a).mailboxStatus ≠ 0 := by
    rw [carried_status henter]
    exact hfull
  have hback : Keeps a b.system.enter.kernel s'.kernel →
      (s'.kernel.procs a).mailboxStatus = (b.kernel.procs a).mailboxStatus ∧
        (s'.kernel.procs a).mailbox = (b.kernel.procs a).mailbox := by
    intro hkeeps
    obtain ⟨hst, hbox⟩ := hkeeps hfull'
    exact ⟨hst.trans (carried_status henter a), hbox.trans (carried_mailbox henter a)⟩
  cases act with
  | user regs epc bytes rights =>
    rw [Board.event, System.step] at hstep
    split at hstep
    · obtain rfl := Option.some.inj hstep
      exact ⟨rfl, rfl⟩
    · exact absurd hstep (by simp)
  | sendMsg =>
    obtain ⟨-, -, hsends⟩ := step_sendMsg (s := b.system) hs hstep
    apply hback
    cases hsends with
    | exited k bad rest => exact Keeps.carried rest
    | refused k rest => exact Keeps.carried rest
    | delivered target k found live empty rest =>
      apply Keeps.modify rest
      rintro rfl
      exact absurd empty hfull'
    | blocked target k found live full rest => exact Keeps.modify rest fun _ => ⟨rfl, rfl⟩
  | recvMsg =>
    obtain ⟨-, -, hreceives⟩ := step_recvMsg (s := b.system) hs hstep
    apply hback
    cases hreceives with
    | exited k bad rest => exact Keeps.carried rest
    | asleep k empty rest => exact Keeps.carried rest
    | fetched k full rest awake mem copy => exact Keeps.modify rest fun he => absurd he (hown rfl)
  | call c =>
    obtain ⟨hplain, -, k', hcall, rfl, -⟩ := step_call (s := b.system) hs hstep
    obtain ⟨-, hcarried⟩ := call_mail hs hplain hcall
    exact ⟨carried_status hcarried a, carried_mailbox hcarried a⟩

/-- A full mailbox stays as it is until its owner receives. -/
theorem keeps_run (hr : Run Board.step b₂ g b₃) (hs : ∃ v, Sound b₂.kernel v)
    (hown : Run.Steps (fun b act => act = .recvMsg → b.kernel.curr 0 ≠ a) g)
    (hfull : (b₂.kernel.procs a).mailboxStatus ≠ 0) :
    (∃ v, Sound b₃.kernel v) ∧ (b₃.kernel.procs a).mailboxStatus =
      (b₂.kernel.procs a).mailboxStatus ∧
      (b₃.kernel.procs a).mailbox = (b₂.kernel.procs a).mailbox := by
  refine hr.invariant (I := fun b => (∃ v, Sound b.kernel v) ∧
    (b.kernel.procs a).mailboxStatus = (b₂.kernel.procs a).mailboxStatus ∧
      (b.kernel.procs a).mailbox = (b₂.kernel.procs a).mailbox) hown ⟨hs, rfl, rfl⟩ ?_
  rintro b act b' ⟨⟨v, hs⟩, hst, hbox⟩ hact hstep
  obtain ⟨hst', hbox'⟩ := keeps_step hs hstep hact (hst ▸ hfull)
  exact ⟨Board.sound_step hs hstep, hst'.trans hst, hbox'.trans hbox⟩

/-- A send that fills the mailbox of a process: the pid of the sender, and eight words. -/
theorem sent_mailbox (hs : Sound b₁.kernel v) (h : b₁.step .sendMsg = some b₂)
    (hempty : (b₁.kernel.procs a).mailboxStatus = 0)
    (hfull : (b₂.kernel.procs a).mailboxStatus ≠ 0) :
    b₂.bytes = b₁.bytes ∧
      (b₂.kernel.procs a).mailbox 0 = (b₁.kernel.procs (b₁.kernel.curr 0)).pid ∧
      ∀ i < 9, i ≠ 0 → (b₂.kernel.procs a).mailbox i = b₁.words (wrap (b₁.sendAddr + 8 * i)) := by
  obtain ⟨s', hstep, hk⟩ := Board.step_system h
  have hbytes : b₂.bytes = b₁.bytes := by
    obtain ⟨s'', -, he⟩ := Option.map_eq_some_iff.mp h
    exact (congrArg Board.bytes he).symm
  refine ⟨hbytes, ?_⟩
  rw [← hk] at hfull ⊢
  have henter := carried_enter (W := fun _ _ => False) b₁.system
  have hempty' : (b₁.system.enter.kernel.procs a).mailboxStatus = 0 :=
    (carried_status henter a).trans hempty
  obtain ⟨-, -, hsends⟩ := step_sendMsg (s := b₁.system) hs hstep
  cases hsends with
  | exited k bad rest => exact absurd ((carried_status rest a).trans hempty') hfull
  | refused k rest => exact absurd ((carried_status rest a).trans hempty') hfull
  | blocked target k found live full rest =>
    have hst := carried_status rest a
    rw [procs_modify] at hst
    split at hst
    · rename_i he
      subst he
      exact absurd (hst.trans hempty') hfull
    · exact absurd (hst.trans hempty') hfull
  | delivered target k found live empty rest =>
    have hst := carried_status rest a
    have hbox := carried_mailbox rest a
    rw [procs_modify] at hst hbox
    split at hst
    · rename_i he
      rw [if_pos he] at hbox
      have hsending : ∀ i, (k.procs a).mailbox i = b₁.system.enter.sending
          (b₁.system.enter.kernel.procs target) i := fun i => congrFun hbox i
      constructor
      · refine (hsending 0).trans ?_
        rw [System.sending, Function.update_self, enter_curr]
        rfl
      · intro i hi h0
        refine (hsending i).trans ?_
        rw [System.sending, Function.update_of_ne h0, if_pos hi, enter_curr]
        rfl
    · exact absurd (hst.trans hempty') hfull

/-- A receive that empties the mailbox of its process copies it into memory. -/
theorem received_bytes (hs : Sound b₃.kernel v) (h : b₃.step .recvMsg = some b₄)
    (hfull : (b₃.kernel.procs (b₃.kernel.curr 0)).mailboxStatus ≠ 0)
    (hempty : (b₄.kernel.procs (b₃.kernel.curr 0)).mailboxStatus = 0) :
    b₄.bytes = putMessage b₃.bytes b₃.recvAddr (b₃.kernel.procs (b₃.kernel.curr 0)).mailbox := by
  obtain ⟨s', hstep, hb₄⟩ := Option.map_eq_some_iff.mp h
  have hbytes : b₄.bytes = b₃.received := (congrArg Board.bytes hb₄).symm
  have hgood : b₃.recvAddr ≠ 0 := by
    intro hbad
    have hbad' : uvmTranslate b₃.system.enter.mem
        (b₃.system.enter.kernel.procs (b₃.system.enter.kernel.curr 0)).satp
        ((b₃.system.enter.kernel.procs (b₃.system.enter.kernel.curr 0)).tf.uContext 10) = 0 := by
      rw [enter_curr]
      exact hbad
    rw [System.step] at hstep
    split at hstep
    · rename_i hu
      have henter := carried_enter (W := fun _ _ => False) b₃.system
      have hsound := (touched_enter b₃.system).sound hs
      have hruns := userRuns_enter hu
      obtain ⟨k', v', hrun, -⟩ := hsound.exitProcess hruns.1 hruns.2 minusOne
      have hexit : Carried (fun _ _ => True) b₃.system.enter.kernel k' :=
        Carried.exitProcess trivial hrun
      rw [System.recvMsg] at hstep
      dsimp only at hstep
      rw [if_pos hbad', hrun] at hstep
      obtain rfl := Option.some.inj hstep
      have hst : (b₄.kernel.procs (b₃.kernel.curr 0)).mailboxStatus =
          (b₃.kernel.procs (b₃.kernel.curr 0)).mailboxStatus := by
        rw [← hb₄]
        exact (carried_status hexit _).trans (carried_status henter _)
      exact hfull (hst.symm.trans hempty)
    · exact absurd hstep (by simp)
  rw [hbytes, Board.received, if_neg hgood, if_neg hfull]

/-! ## Buffers -/

/-- The 72 bytes at an address of a process lie in user pages of 4 KiB that give a right, each
byte at its place in memory. -/
structure Buffer (b : Board) (a va right : Nat) (loc : Nat → Nat) : Prop where
  small : va < 2 ^ 64
  page : ∀ k < 72, ∃ flags, PageHit b.words (satpTable (b.kernel.procs a).satp) (wrap (va + k))
    ⟨loc k, flags⟩ ∧ flags.testBit 4 = true ∧ flags.testBit right = true

namespace Buffer

variable {va right : Nat} {loc : Nat → Nat} (h : Buffer b a va right loc)
include h

/-- The buffer begins where the code finds it. -/
theorem addr : uvmTranslate b.words (b.kernel.procs a).satp va = loc 0 := by
  obtain ⟨flags, hpage, -⟩ := h.page 0 (by decide)
  have hva : wrap (va + 0) = va := wrap_of_lt h.small
  rw [hva] at hpage
  exact hpage.uvmTranslate

/-- It is in physical memory. -/
theorem lt (hk : k < 72) : loc k < 2 ^ 56 := by
  obtain ⟨flags, hpage, -⟩ := h.page k hk
  exact hpage.phys_lt

/-- A place in memory tells which byte of the buffer it can be. -/
theorem apart {j : Nat} (hj : j < 72) (hk : k < 72) (he : loc j = loc 0 + k) : j = k := by
  obtain ⟨_, hpage₀, -⟩ := h.page 0 (by decide)
  obtain ⟨_, hpage, -⟩ := h.page j hj
  have hmod₀ : loc 0 % 4096 = wrap (va + 0) % 4096 := hpage₀.phys_mod
  have hmod : loc j % 4096 = wrap (va + j) % 4096 := hpage.phys_mod
  unfold wrap at hmod₀ hmod
  omega

/-- A buffer in one page is one piece of memory. -/
theorem flat (hpage : va % 4096 + 72 ≤ 4096) (hk : k < 72) : loc k = loc 0 + k := by
  obtain ⟨_, hpage₀, -⟩ := h.page 0 (by decide)
  obtain ⟨_, hpage, -⟩ := h.page k hk
  have hmod₀ : loc 0 % 4096 = wrap (va + 0) % 4096 := hpage₀.phys_mod
  have hmod : loc k % 4096 = wrap (va + k) % 4096 := hpage.phys_mod
  have hsmall := h.small
  have hframe : loc k / 4096 = loc 0 / 4096 := by
    apply hpage.frame_eq hpage₀
    unfold wrap
    omega
  unfold wrap at hmod₀ hmod
  omega

end Buffer

/-! ## A send and the receive that takes the message -/

/-- A send to a process that completes, and the receive that takes the message. -/
structure Handover (b₁ b₂ b₃ b₄ : Board) (a : Nat) : Prop where
  sound : ∃ v, Sound b₁.kernel v
  send : b₁.step .sendMsg = some b₂
  empty : (b₁.kernel.procs a).mailboxStatus = 0
  full : (b₂.kernel.procs a).mailboxStatus ≠ 0
  between : ∃ g, Run Board.step b₂ g b₃ ∧
    Run.Steps (fun b act => act = .recvMsg → b.kernel.curr 0 ≠ a) g
  receiver : b₃.kernel.curr 0 = a
  recv : b₃.step .recvMsg = some b₄
  taken : (b₄.kernel.procs a).mailboxStatus = 0

/-- Byte `k` of a message whose bytes lie at `loc` in the memory of its sender. -/
def sentByte (b : Board) (loc : Nat → Nat) (k : Nat) : UInt8 :=
  if k < 8 then Bytes.byteOf (b.kernel.procs (b.kernel.curr 0)).pid k else b.bytes (loc k)

/-- The message goes from buffer to buffer, and no other byte changes. -/
structure Copied (b₁ b₂ b₃ b₄ : Board) (src dst : Nat → Nat) : Prop where
  buffer : ∀ k < 72, b₄.bytes (dst k) = sentByte b₁ src k
  sending : b₂.bytes = b₁.bytes
  receiving : ∀ x, (∀ k < 72, x ≠ src k) → (∀ k < 72, x ≠ dst k) → b₄.bytes x = b₃.bytes x

/-- Where the buffers are not in one piece, memory holds by chance what it should. -/
def Harmless (b₁ b₃ : Board) (src dst : Nat → Nat) : Prop :=
  ∀ k < 72, if dst k = dst 0 + k then sentByte b₁ (src 0 + ·) k = sentByte b₁ src k
    else b₃.bytes (dst k) = sentByte b₁ src k ∧
      ((∀ j < 72, dst 0 + k ≠ src j) → b₃.bytes (dst 0 + k) = sentByte b₁ (src 0 + ·) k)

/-- Buffers in one piece of memory are harmless. -/
theorem harmless_of_flat (hsrc : ∀ k < 72, src k = src 0 + k) (hdst : ∀ k < 72, dst k = dst 0 + k) :
    Harmless b₁ b₃ src dst := by
  intro k hk
  rw [if_pos (hdst k hk), sentByte, sentByte, hsrc k hk]

/-- Buffers within one page each are harmless. -/
theorem harmless_within_pages {va va' right right' a' : Nat} (hsrc : Buffer b₁ a va right src)
    (hdst : Buffer b₃ a' va' right' dst) (hva : va % 4096 + 72 ≤ 4096)
    (hva' : va' % 4096 + 72 ≤ 4096) : Harmless b₁ b₃ src dst :=
  harmless_of_flat (fun _ hk => hsrc.flat hva hk) fun _ hk => hdst.flat hva' hk

/-- The bytes that the receive writes, and no others. -/
theorem Handover.writes (h : Handover b₁ b₂ b₃ b₄ a)
    (hsrc : Buffer b₁ (b₁.kernel.curr 0)
      ((b₁.kernel.procs (b₁.kernel.curr 0)).tf.uContext 11) 1 src)
    (hdst : Buffer b₃ a ((b₃.kernel.procs a).tf.uContext 10) 2 dst) :
    b₂.bytes = b₁.bytes ∧
      (∀ k < 72, b₄.bytes (dst 0 + k) = sentByte b₁ (src 0 + ·) k) ∧
      ∀ x, (∀ k < 72, x ≠ dst 0 + k) → b₄.bytes x = b₃.bytes x := by
  obtain ⟨v, hs⟩ := h.sound
  obtain ⟨g, hr, hown⟩ := h.between
  obtain ⟨hbytes, hpid, hwords⟩ := sent_mailbox hs h.send h.empty h.full
  obtain ⟨⟨v₃, hs₃⟩, hst, hbox⟩ := keeps_run hr (Board.sound_step hs h.send) hown h.full
  have hfull : (b₃.kernel.procs (b₃.kernel.curr 0)).mailboxStatus ≠ 0 := by
    rw [h.receiver, hst]
    exact h.full
  have hput := received_bytes hs₃ h.recv hfull (h.receiver ▸ h.taken)
  have hto : b₃.recvAddr = dst 0 := by
    rw [Board.recvAddr, h.receiver]
    exact hdst.addr
  have hfrom : b₁.sendAddr = src 0 := hsrc.addr
  rw [hto, h.receiver, hbox] at hput
  have hsrc₀ := hsrc.lt (k := 0) (by decide)
  have hdst₀ := hdst.lt (k := 0) (by decide)
  have hwrap : ∀ k < 72, wrap (dst 0 + k) = dst 0 + k := fun k hk => wrap_of_lt (by omega)
  refine ⟨hbytes, fun k hk => ?_, fun x hx => ?_⟩
  · have hself : putMessage b₃.bytes (dst 0) (b₂.kernel.procs a).mailbox (wrap (dst 0 + k)) =
        Bytes.byteOf ((b₂.kernel.procs a).mailbox (k / 8)) (k % 8) := putMessage_self hk
    rw [hwrap k hk] at hself
    rw [hput, hself, sentByte]
    split
    · rename_i h8
      rw [Nat.div_eq_of_lt h8, hpid, Nat.mod_eq_of_lt h8]
    · rename_i h8
      rw [hwords (k / 8) (by omega) (by omega), hfrom, Board.words,
        Bytes.byteOf_load (Nat.mod_lt k (by decide))]
      congr 1
      unfold wrap
      omega
  · rw [hput, putMessage_of_ne]
    intro k hk
    rw [hwrap k hk]
    exact hx k hk

/-- The receiver gets the message that the sender has in its buffer, and no other byte changes,
if and only if what lies behind a page boundary happens to be right. -/
theorem copied_iff (h : Handover b₁ b₂ b₃ b₄ a)
    (hsrc : Buffer b₁ (b₁.kernel.curr 0)
      ((b₁.kernel.procs (b₁.kernel.curr 0)).tf.uContext 11) 1 src)
    (hdst : Buffer b₃ a ((b₃.kernel.procs a).tf.uContext 10) 2 dst) :
    Copied b₁ b₂ b₃ b₄ src dst ↔ Harmless b₁ b₃ src dst := by
  obtain ⟨hbytes, hwritten, hrest⟩ := h.writes hsrc hdst
  have hbehind : ∀ k < 72, dst k ≠ dst 0 + k → b₄.bytes (dst k) = b₃.bytes (dst k) := by
    intro k hk hne
    apply hrest
    intro j hj he
    obtain rfl := hdst.apart hk hj he
    exact hne he
  constructor
  · intro hc k hk
    split
    · rename_i he
      rw [← hwritten k hk, ← he]
      exact hc.buffer k hk
    · rename_i hne
      constructor
      · rw [← hbehind k hk hne]
        exact hc.buffer k hk
      · intro hout
        rw [← hwritten k hk]
        refine (hc.receiving _ hout fun j hj he => ?_).symm
        obtain rfl := hdst.apart hj hk he.symm
        exact hne he.symm
  · intro hh
    refine ⟨fun k hk => ?_, hbytes, fun x hxs hxd => ?_⟩
    · have hk' := hh k hk
      split at hk'
      · rename_i he
        rw [he, hwritten k hk]
        exact hk'
      · rename_i hne
        rw [hbehind k hk hne]
        exact hk'.1
    · by_cases hx : ∃ k < 72, x = dst 0 + k
      · obtain ⟨k, hk, rfl⟩ := hx
        have hk' := hh k hk
        rw [if_neg (hxd k hk).symm] at hk'
        rw [hwritten k hk]
        exact (hk'.2 hxs).symm
      · exact hrest x fun k hk he => hx ⟨k, hk, he⟩

/-! ## A buffer in two pages -/

namespace Board

/-- The board after an act that can happen. -/
def next (b : Board) (act : Act) : Board := (b.step act).getD b

/-- The board of a step that is possible. -/
theorem step_next (h : (b.step act).isSome = true) : b.step act = some (b.next act) := by
  obtain ⟨b', hb'⟩ := Option.isSome_iff_exists.mp h
  rw [next, hb']
  rfl

/-- Tables at 0, 0x1000 and 0x2000 map the pages 5, 6 and 7 to the frames at 0x80200000,
0x80300000 and 0x80400000. Every byte from 0x80300000 on is 7. -/
def tables (x : Nat) : UInt8 :=
  let word := x / 8 * 8
  let entry :=
    if word = 0 then 0x401
    else if word = 0x1000 then 0x801
    else if word = 0x2028 then 0x200800D7
    else if word = 0x2030 then 0x200C00D7
    else if word = 0x2038 then 0x201000D7
    else 0
  if 0x80300000 ≤ x then 7 else Bytes.byteOf entry (x % 8)

/-- User code that sets `a0` and `a1`. -/
def code (a0 a1 : Nat) : Act :=
  .user (fun i => if i = 10 then a0 else if i = 11 then a1 else 0) 0 tables fun _ _ => 0xFFFFFFFF

/-- Process 1 is about to send what it has at `va`. -/
def sender (va : Nat) : Board :=
  ((Board.mk System.pair.kernel tables).next (.call .schedule)).next (code 2 va)

/-- Process 2 is about to receive at 0x7000. -/
def receiver (va : Nat) : Board :=
  (((sender va).next .sendMsg).next (.call .schedule)).next (code 0x7000 0)

end Board

/-- A message that crosses a page boundary, and one that does not. -/
theorem handover_trial : ∀ va ∈ [0x5FC0, 0x5000], Handover (Board.sender va)
    ((Board.sender va).next .sendMsg) (Board.receiver va) ((Board.receiver va).next .recvMsg)
    0x3000 := by
  have hfirst : ((Board.mk System.pair.kernel Board.tables).step (.call .schedule)).isSome =
      true := by decide +kernel
  have hcode : ∀ va ∈ [0x5FC0, 0x5000],
      (((Board.mk System.pair.kernel Board.tables).next (.call .schedule)).step
        (Board.code 2 va)).isSome = true := by decide +kernel
  have hsend : ∀ va ∈ [0x5FC0, 0x5000], ((Board.sender va).step .sendMsg).isSome = true := by
    decide +kernel
  have hsecond : ∀ va ∈ [0x5FC0, 0x5000],
      (((Board.sender va).next .sendMsg).step (.call .schedule)).isSome = true := by
    decide +kernel
  have hcode' : ∀ va ∈ [0x5FC0, 0x5000],
      ((((Board.sender va).next .sendMsg).next (.call .schedule)).step
        (Board.code 0x7000 0)).isSome = true := by decide +kernel
  have hrecv : ∀ va ∈ [0x5FC0, 0x5000], ((Board.receiver va).step .recvMsg).isSome = true := by
    decide +kernel
  have hboxes : ∀ va ∈ [0x5FC0, 0x5000],
      ((Board.sender va).kernel.procs 0x3000).mailboxStatus = 0 ∧
      (((Board.sender va).next .sendMsg).kernel.procs 0x3000).mailboxStatus ≠ 0 ∧
      (Board.receiver va).kernel.curr 0 = 0x3000 ∧
      (((Board.receiver va).next .recvMsg).kernel.procs 0x3000).mailboxStatus = 0 := by
    decide +kernel
  intro va hva
  obtain ⟨hempty, hfull, hcurr, htaken⟩ := hboxes va hva
  exact {
    sound := by
      obtain ⟨v, hs⟩ := System.fresh_pair.sound
      obtain ⟨v₁, hs₁⟩ := Board.sound_step (b := ⟨System.pair.kernel, Board.tables⟩) hs
        (Board.step_next hfirst)
      exact Board.sound_step hs₁ (Board.step_next (hcode va hva))
    send := Board.step_next (hsend va hva)
    empty := hempty
    full := hfull
    between := by
      refine ⟨_, (Run.nil.snoc (Board.step_next (hsecond va hva))).snoc
        (Board.step_next (hcode' va hva)), ?_⟩
      refine Run.steps_cons.mpr ⟨fun he => ?_, Run.steps_cons.mpr ⟨fun he => ?_, Run.Steps.nil⟩⟩
      · exact absurd he (by simp [Board.code])
      · exact absurd he (by simp)
    receiver := hcurr
    recv := Board.step_next (hrecv va hva)
    taken := htaken }

/-- The buffer of the sender lies in two frames, 1 MiB from each other. -/
def apartAt (k : Nat) : Nat := if k < 64 then 0x80200FC0 + k else 0x80300000 + (k - 64)

/-- The programs of the example keep its tables. -/
theorem next_code (h : (b.step (Board.code i k)).isSome = true) :
    (b.next (Board.code i k)).bytes = Board.tables := by
  obtain ⟨s', -, he⟩ := Option.map_eq_some_iff.mp (Board.step_next h)
  exact (congrArg Board.bytes he).symm

/-- A buffer of the example. -/
theorem buffer_trial {a va right : Nat} (flags : Nat) {loc : Nat → Nat}
    (hbytes : b.bytes = Board.tables) (hsatp : (b.kernel.procs a).satp = 0) (hva : va < 2 ^ 64)
    (hright : flags.testBit 4 = true ∧ flags.testBit right = true)
    (hpage : ∀ k < 72, sv39 (fun x => Bytes.load Board.tables x 8) 0 (wrap (va + k)) =
      some ⟨loc k, flags⟩ ∧ link (cell (fun x => Bytes.load Board.tables x 8) 0
        (index (wrap (va + k)) 2)) = some 0x1000 ∧
      link (cell (fun x => Bytes.load Board.tables x 8) 0x1000 (index (wrap (va + k)) 1)) =
        some 0x2000) : Buffer b a va right loc where
  small := hva
  page := by
    intro k hk
    obtain ⟨hwalk, h₁, h₀⟩ := hpage k hk
    have hwords : b.words = fun x => Bytes.load Board.tables x 8 := by
      funext x
      rw [Board.words, hbytes]
    rw [hwords, hsatp]
    exact ⟨flags, ⟨hwalk, 0x1000, 0x2000, h₁, h₀⟩, hright⟩

/-- Both processes have their buffers in user pages. -/
theorem buffers_trial : ∀ va ∈ [0x5FC0, 0x5000],
    Buffer (Board.sender va) ((Board.sender va).kernel.curr 0)
      (((Board.sender va).kernel.procs ((Board.sender va).kernel.curr 0)).tf.uContext 11) 1
      (if va = 0x5000 then (0x80200000 + ·) else apartAt) ∧
    Buffer (Board.receiver va) 0x3000 (((Board.receiver va).kernel.procs 0x3000).tf.uContext 10) 2
      (0x80400000 + ·) := by
  have hcode : ∀ va ∈ [0x5FC0, 0x5000],
      (((Board.mk System.pair.kernel Board.tables).next (.call .schedule)).step
        (Board.code 2 va)).isSome = true := by decide +kernel
  have hcode' : ∀ va ∈ [0x5FC0, 0x5000],
      ((((Board.sender va).next .sendMsg).next (.call .schedule)).step
        (Board.code 0x7000 0)).isSome = true := by decide +kernel
  have hfrom : ∀ va ∈ [0x5FC0, 0x5000],
      ((Board.sender va).kernel.procs ((Board.sender va).kernel.curr 0)).tf.uContext 11 = va ∧
      ((Board.sender va).kernel.procs ((Board.sender va).kernel.curr 0)).satp = 0 := by
    decide +kernel
  have hto : ∀ va ∈ [0x5FC0, 0x5000],
      ((Board.receiver va).kernel.procs 0x3000).tf.uContext 10 = 0x7000 ∧
      ((Board.receiver va).kernel.procs 0x3000).satp = 0 := by decide +kernel
  intro va hva
  obtain ⟨hfrom, hsatp⟩ := hfrom va hva
  obtain ⟨hto, hsatp'⟩ := hto va hva
  rw [hfrom, hto]
  constructor
  · rcases List.mem_pair.mp hva with rfl | rfl <;>
    exact buffer_trial 0xD7 (next_code (hcode _ hva)) hsatp (by decide) (by decide)
      (by decide +kernel)
  · exact buffer_trial 0xD7 (next_code (hcode' va hva)) hsatp' (by decide) (by decide)
      (by decide +kernel)

/-- The last eight bytes of the message are not those that the sender has behind the page
boundary. -/
theorem not_copied_across_pages : ∃ (b₁ b₂ b₃ b₄ : Board) (a : Nat) (src dst : Nat → Nat),
    Handover b₁ b₂ b₃ b₄ a ∧
    Buffer b₁ (b₁.kernel.curr 0) ((b₁.kernel.procs (b₁.kernel.curr 0)).tf.uContext 11) 1 src ∧
    Buffer b₃ a ((b₃.kernel.procs a).tf.uContext 10) 2 dst ∧ ¬Copied b₁ b₂ b₃ b₄ src dst := by
  have hbuffers := buffers_trial 0x5FC0 (by decide)
  refine ⟨_, _, _, _, _, _, _, handover_trial 0x5FC0 (by decide), hbuffers.1, hbuffers.2,
    fun hc => ?_⟩
  have hbyte : ((Board.receiver 0x5FC0).next .recvMsg).bytes (0x80400000 + 64) ≠
      sentByte (Board.sender 0x5FC0) apartAt 64 := by decide +kernel
  exact hbyte (hc.buffer 64 (by decide))

/-- The message that lies in one page arrives. -/
theorem copied_within_page :
    Copied (Board.sender 0x5000) ((Board.sender 0x5000).next .sendMsg) (Board.receiver 0x5000)
      ((Board.receiver 0x5000).next .recvMsg) (0x80200000 + ·) (0x80400000 + ·) := by
  have hfrom : ((Board.sender 0x5000).kernel.procs
      ((Board.sender 0x5000).kernel.curr 0)).tf.uContext 11 = 0x5000 := by decide +kernel
  have hto : ((Board.receiver 0x5000).kernel.procs 0x3000).tf.uContext 10 = 0x7000 := by
    decide +kernel
  obtain ⟨hsrc, hdst⟩ := buffers_trial 0x5000 (by decide)
  apply (copied_iff (handover_trial 0x5000 (by decide)) hsrc hdst).mpr
  exact harmless_within_pages hsrc hdst (by rw [hfrom]; decide) (by rw [hto]; decide)

end RexOS.Ipc
