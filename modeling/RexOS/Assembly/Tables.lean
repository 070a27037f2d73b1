import RexOS.Assembly.Process
import RexOS.Paging.KernelSpace
import RexOS.Paging.Tiles

/-!
# The tables of the trampoline

A hart that walks Sv39 tables in memory. Where the tables of a process and of the kernel are in
memory and translate as the routines of `vm.c` have laid them out, the trampoline and the frame are
mapped, and stay so whatever happens to other words.
-/

namespace RexOS.Assembly

open Riscv RexOS.Kalloc RexOS.Paging Radix

/-- A number as a word. -/
def word (n : ℕ) : Word := BitVec.ofNat 64 n

/-- A small number is a word. -/
theorem toNat_word {n : ℕ} (hn : n < 2 ^ 64) : (word n).toNat = n := by
  rw [word, BitVec.toNat_ofNat, Nat.mod_eq_of_lt hn]

@[simp] theorem word_toNat (w : Word) : word w.toNat = w :=
  (BitVec.ofNat_toNat 64 w).trans (BitVec.setWidth_eq w)

theorem word_add (a b : ℕ) : word (a + b) = word a + word b := BitVec.ofNat_add a b

theorem word_mul (a b : ℕ) : word (a * b) = word a * word b := BitVec.ofNat_mul a b

/-- Memory as the tables are read. -/
def words (m : Memory) (a : ℕ) : ℕ := (m (word a)).toNat

/-- What the flags of a leaf allow. SUM and MXR are never set, and a leaf must have A and, for a
store, D. -/
def permits (x : Access) (mode : Mode) (flags : ℕ) : Bool :=
  flags.testBit 6 && (flags.testBit 4 == (mode == .user)) &&
    match x with
    | .fetch => flags.testBit 3
    | .load => flags.testBit 1
    | .store => flags.testBit 2 && flags.testBit 7

/-- The walk under `satp`, whose highest four bits are 8 for Sv39 and 0 for no translation. -/
def sv39Walk (x : Access) (mode : Mode) (satp : Word) (m : Memory) (va : Word) : Option Word :=
  if satp.toNat / 2 ^ 60 = 0 then some va
  else (sv39 (words m) (satpTable satp.toNat) va.toNat).bind fun hit =>
    if permits x mode hit.flags then some (word hit.phys) else none

variable {β : Type} {s : Space β} {root : ℕ} {m m' : Memory} {p : Platform Symbol}
  {K W : Set Word} {x : Access} {mode : Mode} {satp : Word}

/-- The words of the tables under a root. -/
def tableWords (s : Space β) (root : ℕ) : Set Word := {w | s.OnTable root w.toNat}

/-- These tables are in memory. -/
def InMemory (s : Space β) (root : ℕ) (m : Memory) : Prop :=
  ∀ a, s.OnTable root a → a < 2 ^ 64 ∧ words m a = s.mem a

/-- The walk reads nothing else. -/
theorem sv39_words (h : InMemory s root m) (he : Set.EqOn m' m (tableWords s root)) (va : ℕ) :
    sv39 (words m') root va = sv39 s.mem root va := by
  change sv39 { s with mem := words m' }.mem root va = sv39 s.mem root va
  refine Space.sv39_agree (fun a ha => ?_) va
  obtain ⟨hlt, hword⟩ := h a ha
  have hmem : word a ∈ tableWords s root := by
    change s.OnTable root (word a).toNat
    rwa [toNat_word hlt]
  exact (congrArg BitVec.toNat (he hmem)).trans hword

/-- The tables under `root` are in force under `satp`. -/
structure InForce (p : Platform Symbol) (K : Set Word) (s : Space β) (root : ℕ) (satp : Word)
    (m : Memory) : Prop where
  memory : InMemory s root m
  inside : tableWords s root ⊆ K
  walk : p.walk = sv39Walk
  mode : satp.toNat / 2 ^ 60 ≠ 0
  named : satpTable satp.toNat = root

/-- Tables in force are walked as Sv39 does. -/
theorem InForce.walk_eq (h : InForce p K s root satp m) (hm : Set.EqOn m' m K) (va : Word) :
    p.walk x mode satp m' va = (sv39 s.mem root va.toNat).bind fun hit =>
      if permits x mode hit.flags then some (word hit.phys) else none := by
  rw [h.walk, sv39Walk, if_neg h.mode, h.named, sv39_words h.memory (hm.mono h.inside)]

/-- What they map is mapped. -/
theorem InForce.maps {va : Word} {phys flags : ℕ} (h : InForce p K s root satp m)
    (hmode : mode ≠ .machine) (hit : sv39 s.mem root va.toNat = some ⟨phys, flags⟩)
    (hp : permits x mode flags = true) : Maps p K x mode satp m va (word phys) := by
  intro m' hm
  rw [Platform.translate, if_neg hmode, h.walk_eq hm, hit, Option.bind_some, if_pos hp]

end RexOS.Assembly
