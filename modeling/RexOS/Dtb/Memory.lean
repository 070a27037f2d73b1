import RexOS.Dtb.Walk
import RexOS.Dtb.Writer

/-!
# The memory node

`dtb_parser_ram` takes every node for the memory whose name begins with `memory`, and the last
`reg` property of such a node is what it leaves in `ram`.
-/

namespace RexOS.Dtb

open Kalloc

variable {b : Blob} {t f : Trees} {n : Node (List UInt8) Property} {v : List UInt8}
  {front back : List (Node (List UInt8) Property)} {s : RamScan} {ram : Meta}

/-- The node is called `memory`, with or without an address. -/
def IsMemory (n : Node (List UInt8) Property) : Prop :=
  n.name = chars "memory" ∨ chars "memory@" <+: n.name

instance (n : Node (List UInt8) Property) : Decidable (IsMemory n) :=
  inferInstanceAs (Decidable (_ ∨ _))

/-- The `reg` properties that the parser takes. -/
def memoryRegs (nodes : List (Node (List UInt8) Property)) : List (List UInt8) :=
  nodes.flatMap fun n => if chars "memory" <+: n.name then valuesNamed "reg" n.props else []

/-- The values of some nodes and of some more. -/
theorem memoryRegs_append (ms ns : List (Node (List UInt8) Property)) :
    memoryRegs (ms ++ ns) = memoryRegs ms ++ memoryRegs ns := List.flatMap_append

/-- The values of one node and of the others. -/
theorem memoryRegs_cons (ns : List (Node (List UInt8) Property)) : memoryRegs (n :: ns) =
    (if chars "memory" <+: n.name then valuesNamed "reg" n.props else []) ++ memoryRegs ns :=
  List.flatMap_cons

/-- The `reg` properties that the parser takes begin with an address and a size, with two cells
each. -/
def MemoryCells (t : Trees) : Prop := ∀ v ∈ memoryRegs t.nodes, 16 ∣ v.length ∧ v ≠ []

instance (t : Trees) : Decidable (MemoryCells t) := inferInstanceAs (Decidable (∀ v ∈ _, _))

def ramScanner : Scanner (List UInt8) Property Stop RamScan where
  opening name s := .ok { s with insideMemory := decide (chars "memory" <+: name) }
  property p s :=
    if s.insideMemory = true ∧ p.name = chars "reg" then do
      let base ← cells p.value 0
      let size ← cells p.value 8
      pure { s with ram := ⟨base, size⟩ }
    else .ok s
  closing s := s

/-- The visitor reads as the scanner does. -/
theorem reads_ram : Reads ramVisitor ramScanner where
  opening name rest s hclean := by
    have hprefix : kstrHasPrefix (cstr "memory") (name ++ 0 :: rest) =
        .ok (decide (chars "memory" <+: name)) := kstrHasPrefix_eq (by decide) hclean
    apply Extends.of_eq
    simp only [ramVisitor, ramScanner, hprefix, ok_bind]
    rfl
  closing s := rfl
  property b strings ptr nameoff p s hclean _ hoff hnamed hword hvalue := by
    have hcmp := kstrcmp_named (w := "reg") (by decide) hclean hnamed
    simp only [ramVisitor, ramScanner, word_eq hword hoff, ok_bind, hcmp, decide_eq_true_eq]
    by_cases hin : s.insideMemory = true
    · by_cases hname : p.name = chars "reg"
      · rw [if_pos ⟨hin, hname⟩, if_pos hin, if_pos hname]
        have hbase : Extends (cells p.value 0) (cells b (ptr + 8)) := cells_extends hvalue
        have hsize : Extends (cells p.value 8) (cells b (ptr + 16)) := cells_extends hvalue
        apply hbase.bind
        intro base
        exact hsize.bind fun size => Extends.rfl
      · rw [if_neg fun h => hname h.2, if_pos hin, if_neg hname]
        exact Extends.rfl
    · rw [if_neg fun h => hin h.1, if_neg hin]
      exact Extends.rfl

/-- The properties of one node. -/
theorem ram_props {ps : List Property} {inside : Bool}
    (h : inside = true → ∀ v ∈ valuesNamed "reg" ps, 16 ∣ v.length ∧ v ≠ []) :
    ramScanner.props ps ⟨inside, ram⟩ = .ok ⟨inside,
      (if inside = true then valuesNamed "reg" ps else []).getLast?.elim ram firstPair⟩ := by
  induction ps generalizing ram with
  | nil => cases inside <;> rfl
  | cons p ps ih =>
    have hstep : ramScanner.property p ⟨inside, ram⟩ = .ok ⟨inside,
        if inside = true ∧ p.name = chars "reg" then firstPair p.value else ram⟩ := by
      show (if inside = true ∧ p.name = chars "reg" then _ else _) = _
      split
      · rename_i hreg
        have hmem : p.value ∈ valuesNamed "reg" (p :: ps) := by simp [valuesNamed, hreg.2]
        obtain ⟨hdvd, hne⟩ := h hreg.1 p.value hmem
        have hpos := List.length_pos_of_ne_nil hne
        rw [cells_eq (o := 0) (by omega), cells_eq (o := 8) (by omega)]
        rfl
      · rfl
    have hrest : inside = true → ∀ v ∈ valuesNamed "reg" ps, 16 ∣ v.length ∧ v ≠ [] :=
      fun hin v hv => h hin v (by
        simp only [valuesNamed, List.mem_map, List.mem_filter] at hv ⊢
        obtain ⟨q, ⟨hq, hname⟩, hvalue⟩ := hv
        exact ⟨q, ⟨List.mem_cons_of_mem p hq, hname⟩, hvalue⟩)
    rw [Scanner.props_cons, hstep, ok_bind, ih hrest]
    cases inside with
    | false => simp
    | true =>
      have hlast := lastNamed_cons "reg" p ps
      unfold lastNamed at hlast
      simp only [true_and, if_true]
      rw [hlast]
      cases (valuesNamed "reg" ps).getLast? with
      | some v => rfl
      | none => split <;> rfl

/-- The last value decides. -/
theorem ram_forest (h : MemoryCells f) : ∃ inside, ramScanner.forest f s =
    .ok ⟨inside, (memoryRegs f.nodes).getLast?.elim s.ram firstPair⟩ := by
  induction f generalizing s with
  | nil => exact ⟨s.insideMemory, rfl⟩
  | node name ps children rest ihc ihr =>
    rw [MemoryCells, Forest.nodes_node, memoryRegs_cons, memoryRegs_append, List.forall_mem_append,
      List.forall_mem_append] at h
    obtain ⟨hps, hc, hr⟩ := h
    have hopen : ramScanner.opening name s = .ok ⟨decide (chars "memory" <+: name), s.ram⟩ := rfl
    have hprops : decide (chars "memory" <+: name) = true →
        ∀ v ∈ valuesNamed "reg" ps, 16 ∣ v.length ∧ v ≠ [] := fun hin => by
      rwa [if_pos (of_decide_eq_true hin)] at hps
    rw [Scanner.forest, hopen, ok_bind, ram_props hprops, ok_bind]
    obtain ⟨i₁, hchildren⟩ := ihc (s := ⟨decide (chars "memory" <+: name), _⟩) hc
    rw [hchildren, ok_bind]
    obtain ⟨i₂, hrest⟩ := ihr (s := ⟨i₁, _⟩) hr
    refine ⟨i₂, hrest.trans ?_⟩
    rw [Forest.nodes_node, memoryRegs_cons, memoryRegs_append, getLast?_elim_append,
      getLast?_elim_append]
    simp only [decide_eq_true_eq]

/-- `ram` is the pair of the memory node if and only if no node behind it that is taken for
another one has the last word. -/
theorem ram_iff (hb : Flattened b t) (htwo : MemoryCells t) (hn : t.nodes = front ++ n :: back)
    (hname : IsMemory n) (hreg : valuesNamed "reg" n.props = [v]) :
    dtbParserRam b ram = .ok (firstPair v) ↔
      ∀ w ∈ (memoryRegs back).getLast?, firstPair w = firstPair v := by
  have hprefix : chars "memory" <+: n.name := by
    rcases hname with he | hat
    · rw [he]
    · exact List.IsPrefix.trans (by decide) hat
  have hregs : (memoryRegs t.nodes).getLast?.elim ram firstPair =
      (memoryRegs back).getLast?.elim (firstPair v) firstPair := by
    rw [hn, memoryRegs_append, memoryRegs_cons, if_pos hprefix, hreg, getLast?_elim_append,
      getLast?_elim_append]
    rfl
  obtain ⟨inside, hscan⟩ := ram_forest (s := ⟨false, ram⟩) htwo
  have hparse := parser_extends reads_ram hb (s := ⟨false, ram⟩) (by rw [hscan]; simp)
  rw [dtbParserRam, hparse, hscan]
  show Except.ok ((memoryRegs t.nodes).getLast?.elim ram firstPair) = _ ↔ _
  rw [hregs]
  cases (memoryRegs back).getLast? with
  | none => simp
  | some w => simp

/-- 128 MiB of memory, and a memory controller. -/
def controlled : Trees :=
  .node [] []
    (.node (chars "memory@80000000")
      [⟨chars "reg", be32 0 ++ be32 0x80000000 ++ be32 0 ++ be32 0x8000000⟩] .nil
    (.node (chars "memory-controller@10010000")
      [⟨chars "reg", be32 0 ++ be32 0x10010000 ++ be32 0 ++ be32 0x1000⟩] .nil .nil)) .nil

/-- The controller is taken for the memory. -/
theorem ram_of_controller :
    Flattened (blobOf controlled) controlled ∧ TwoCells controlled ∧
      (∃ n v, controlled.nodes.filter (IsMemory ·) = [n] ∧ valuesNamed "reg" n.props = [v] ∧
        firstPair v = ⟨0x80000000, 0x8000000⟩) ∧
      dtbParserRam (blobOf controlled) ⟨0, 0⟩ = .ok ⟨0x10010000, 0x1000⟩ := by
  have hb : Flattened (blobOf controlled) controlled :=
    flattened_blobOf (by decide +kernel) (by decide +kernel)
  exact ⟨hb, by decide, ⟨_, _, rfl, rfl, by decide⟩, by decide +kernel⟩

/-- 128 MiB of memory, with a node below it. -/
def plainNode : Node (List UInt8) Property where
  name := chars "memory@80000000"
  props := [⟨chars "reg", be32 0 ++ be32 0x80000000 ++ be32 0 ++ be32 0x8000000⟩]
  children := .node (chars "bank") [⟨chars "reg", be32 0 ++ be32 0 ++ be32 0 ++ be32 1⟩] .nil .nil

/-- The controller comes before the memory, and a hart with an address of one cell behind it. -/
def plainMemory : Trees :=
  .node [] []
    (.node (chars "memory-controller@10010000")
      [⟨chars "reg", be32 0 ++ be32 0x10010000 ++ be32 0 ++ be32 0x1000⟩] .nil
    (.node plainNode.name plainNode.props plainNode.children
    (.node (chars "cpus") [] (.node (chars "cpu@0") [⟨chars "reg", be32 0⟩] .nil .nil) .nil))) .nil

/-- A memory node as boards have it. -/
theorem ram_iff_plain :
    dtbParserRam (blobOf plainMemory) ⟨0, 0⟩ = .ok ⟨0x80000000, 0x8000000⟩ := by
  have hb : Flattened (blobOf plainMemory) plainMemory :=
    flattened_blobOf (by decide +kernel) (by decide +kernel)
  have hn : plainMemory.nodes = plainMemory.nodes.take 2 ++ plainNode :: plainMemory.nodes.drop 3 :=
    rfl
  exact (ram_iff hb (by decide) hn (by decide) rfl).mpr (by decide)

end RexOS.Dtb
