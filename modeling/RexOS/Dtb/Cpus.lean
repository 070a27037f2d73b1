import RexOS.Dtb.Walk
import RexOS.Dtb.Writer

/-!
# The subtree of the processors

`dtb_parser_hart` and `dtb_parser_time` count the depth below the node whose name begins with
`cpus`. Where there is one such node, what they see is its properties and what is below it.
-/

namespace RexOS.Dtb

variable {α : Type} {b : Blob} {t f : Trees} {n : Node (List UInt8) Property} {d x : Nat}

/-- The node is the one for the processors. -/
def IsCpus (n : Node (List UInt8) Property) : Prop := chars "cpus" <+: n.name

/-- The node is a processor. -/
def IsCpu (n : Node (List UInt8) Property) : Prop := chars "cpu@" <+: n.name

instance (n : Node (List UInt8) Property) : Decidable (IsCpus n) :=
  inferInstanceAs (Decidable (_ <+: _))

instance (n : Node (List UInt8) Property) : Decidable (IsCpu n) :=
  inferInstanceAs (Decidable (_ <+: _))

/-- What happens below the node, with `node` for the names and `prop` for the properties. -/
def below (node : List UInt8 → Nat → Nat) (prop : Property → Nat → Read Nat) :
    Scanner (List UInt8) Property Stop Nat where
  opening name x := .ok (node name x)
  property := prop
  closing x := x

/-- The same, with the depth counted. -/
def cpusScanner (node : List UInt8 → Nat → Nat) (prop : Property → Nat → Read Nat) :
    Scanner (List UInt8) Property Stop CpusScan where
  opening name s := .ok <|
    if chars "cpus" <+: name then { s with cpusDepth := 1 }
    else if s.cpusDepth > 0 then ⟨s.cpusDepth + 1, node name s.global⟩
    else s
  property p s :=
    if s.cpusDepth > 0 then do
      let x ← prop p s.global
      pure { s with global := x }
    else pure s
  closing s := if s.cpusDepth > 0 then { s with cpusDepth := s.cpusDepth - 1 } else s

section Scan

variable (node : List UInt8 → Nat → Nat) (prop : Property → Nat → Read Nat)

variable {name : List UInt8}

/-- At the node itself. -/
theorem cpus_opening (h : chars "cpus" <+: name) (s : CpusScan) :
    (cpusScanner node prop).opening name s = .ok { s with cpusDepth := 1 } := by
  show Except.ok (if chars "cpus" <+: name then _ else _) = _
  rw [if_pos h]

/-- Below it. -/
theorem cpus_opening_below (h : ¬chars "cpus" <+: name) (hd : 0 < d) :
    (cpusScanner node prop).opening name ⟨d, x⟩ = .ok ⟨d + 1, node name x⟩ := by
  show Except.ok (if chars "cpus" <+: name then _ else if 0 < d then _ else _) = _
  rw [if_neg h, if_pos hd]

/-- Elsewhere. -/
theorem cpus_opening_outside (h : ¬chars "cpus" <+: name) :
    (cpusScanner node prop).opening name ⟨0, x⟩ = .ok ⟨0, x⟩ := by
  show Except.ok (if chars "cpus" <+: name then _ else if 0 < 0 then _ else _) = _
  rw [if_neg h, if_neg (Nat.lt_irrefl 0)]

/-- Below `cpus` properties are read. -/
theorem cpus_props (ps : List Property) (hd : 0 < d) :
    (cpusScanner node prop).props ps ⟨d, x⟩ =
      (below node prop).props ps x >>= fun x => .ok ⟨d, x⟩ := by
  induction ps generalizing x with
  | nil => rfl
  | cons p ps ih =>
    have hstep : (cpusScanner node prop).property p ⟨d, x⟩ = prop p x >>= fun x => .ok ⟨d, x⟩ :=
      if_pos hd
    have hbelow : (below node prop).property p x = prop p x := rfl
    rw [Scanner.props_cons, Scanner.props_cons, hstep, hbelow, bind_assoc, bind_assoc]
    apply bind_congr
    intro x
    exact ih

/-- Properties outside are not read. -/
theorem cpus_props_outside (ps : List Property) :
    (cpusScanner node prop).props ps ⟨0, x⟩ = .ok ⟨0, x⟩ := by
  induction ps with
  | nil => rfl
  | cons p ps ih =>
    rw [Scanner.props_cons]
    exact ih

/-- Trees below the node. -/
theorem cpus_below (hd : 0 < d) (h : ∀ n ∈ f.nodes, ¬IsCpus n) :
    (cpusScanner node prop).forest f ⟨d, x⟩ =
      (below node prop).forest f x >>= fun x => .ok ⟨d, x⟩ := by
  induction f generalizing d x with
  | nil => rfl
  | node name ps children rest ihc ihr =>
    rw [Forest.nodes_node, List.forall_mem_cons, List.forall_mem_append] at h
    obtain ⟨hname, hc, hr⟩ := h
    have hopen : (below node prop).opening name x = .ok (node name x) := rfl
    rw [Scanner.forest, Scanner.forest, cpus_opening_below node prop hname hd, hopen,
      ok_bind, ok_bind,
      cpus_props node prop ps (Nat.succ_pos d), bind_assoc, bind_assoc, bind_assoc, bind_assoc]
    apply bind_congr
    intro x
    rw [ok_bind, ihc (Nat.succ_pos d) hc, bind_assoc]
    apply bind_congr
    intro x
    rw [ok_bind]
    exact ihr hd hr

/-- Trees without the node. -/
theorem cpus_outside (h : ∀ n ∈ f.nodes, ¬IsCpus n) :
    (cpusScanner node prop).forest f ⟨0, x⟩ = .ok ⟨0, x⟩ := by
  induction f with
  | nil => rfl
  | node name ps children rest ihc ihr =>
    rw [Forest.nodes_node, List.forall_mem_cons, List.forall_mem_append] at h
    obtain ⟨hname, hc, hr⟩ := h
    rw [Scanner.forest, cpus_opening_outside node prop hname, ok_bind, cpus_props_outside, ok_bind,
      ihc hc, ok_bind]
    exact ihr hr

/-- Trees with one such node: what is in it and below it. -/
theorem cpus_forest (h : f.nodes.filter (IsCpus ·) = [n]) :
    (cpusScanner node prop).forest f ⟨0, x⟩ =
      (below node prop).props n.props x >>= (below node prop).forest n.children >>=
        fun x => .ok ⟨0, x⟩ := by
  have hnone : ∀ {f : Trees}, f.nodes.filter (IsCpus ·) = [] → ∀ n ∈ f.nodes, ¬IsCpus n := by
    intro f hf m hm hcpus
    exact List.filter_eq_nil_iff.mp hf m hm (decide_eq_true hcpus)
  induction f with
  | nil => exact absurd h (by simp)
  | node name ps children rest ihc ihr =>
    rw [Forest.nodes_node, List.filter_cons, List.filter_append] at h
    by_cases hname : IsCpus ⟨name, ps, children⟩
    · rw [if_pos (decide_eq_true hname), List.cons.injEq, List.append_eq_nil_iff] at h
      obtain ⟨rfl, hc, hr⟩ := h
      rw [Scanner.forest, cpus_opening node prop hname, ok_bind,
        cpus_props node prop ps Nat.one_pos, bind_assoc, bind_assoc, bind_assoc]
      apply bind_congr
      intro x
      rw [ok_bind, cpus_below node prop Nat.one_pos (hnone hc), bind_assoc]
      apply bind_congr
      intro x
      rw [ok_bind]
      exact cpus_outside node prop (hnone hr)
    · rw [if_neg (by simpa using hname)] at h
      rw [Scanner.forest, cpus_opening_outside node prop hname, ok_bind,
        cpus_props_outside, ok_bind]
      rcases List.append_eq_singleton_iff.mp h with ⟨hc, hr⟩ | ⟨hc, hr⟩
      · rw [cpus_outside node prop (hnone hc), ok_bind]
        exact ihr hr
      · rw [ihc hc, bind_assoc, bind_assoc, bind_assoc]
        apply bind_congr
        intro x
        apply bind_congr
        intro x
        exact cpus_outside node prop (hnone hr)

end Scan

/-! ## The processors -/

def hartNode (name : List UInt8) (hart : Nat) :
    Nat := if chars "cpu@" <+: name then hart + 1 else hart

def hartProp (_ : Property) (hart : Nat) : Read Nat := .ok hart

/-- The visitor for the harts reads as the scanner does. -/
theorem reads_hart : Reads hartVisitor (cpusScanner hartNode hartProp) where
  opening name rest s hclean := by
    have hcpus :
        kstrHasPrefix (cstr "cpus") (name ++ 0 :: rest) = .ok (decide (chars "cpus" <+: name)) :=
      kstrHasPrefix_eq (by decide) hclean
    have hcpu :
        kstrHasPrefix (cstr "cpu@") (name ++ 0 :: rest) = .ok (decide (chars "cpu@" <+: name)) :=
      kstrHasPrefix_eq (by decide) hclean
    apply Extends.of_eq
    simp only [hartVisitor, cpusScanner, hartNode, hcpus, hcpu, ok_bind, decide_eq_true_eq]
    split
    · rfl
    · split <;> rfl
  closing s := rfl
  property _ _ _ _ p s _ _ _ _ _ _ := by
    apply Extends.of_eq
    show Except.ok s = if s.cpusDepth > 0 then _ else _
    split <;> rfl

/-- No property counts. -/
theorem hart_props (ps : List Property) : (below hartNode hartProp).props ps x = .ok x := by
  induction ps with
  | nil => rfl
  | cons p ps ih => exact ih

/-- Every node that is a hart counts. -/
theorem hart_forest (f : Trees) :
    (below hartNode hartProp).forest f x = .ok (x + f.nodes.countP (IsCpu ·)) := by
  induction f generalizing x with
  | nil => rfl
  | node name ps children rest ihc ihr =>
    have hopen : (below hartNode hartProp).opening name x = .ok (hartNode name x) := rfl
    rw [Scanner.forest, hopen, ok_bind, hart_props, ok_bind, ihc, ok_bind]
    refine ihr.trans ?_
    rw [Forest.nodes_node, List.countP_cons, List.countP_append]
    by_cases hname : chars "cpu@" <+: name
    · have hcpu : IsCpu ⟨name, ps, children⟩ := hname
      simp only [below, hartNode, if_pos hname, hcpu, decide_true, if_true]
      congr 1
      omega
    · have hcpu : ¬IsCpu ⟨name, ps, children⟩ := hname
      simp only [below, hartNode, if_neg hname, hcpu, decide_false, Bool.false_eq_true, if_false]
      congr 1
      omega

/-! ## The timebase -/

def timeNode (_ : List UInt8) (freq : Nat) : Nat := freq

def timeProp (p : Property) (freq : Nat) : Read Nat :=
  if p.name = chars "timebase-frequency" then
    if p.value.length = 8 then cells p.value 0 else word p.value 0
  else .ok freq

/-- The visitor for the timebase reads as the scanner does. -/
theorem reads_time : Reads timeVisitor (cpusScanner timeNode timeProp) where
  opening name rest s hclean := by
    have hcpus :
        kstrHasPrefix (cstr "cpus") (name ++ 0 :: rest) = .ok (decide (chars "cpus" <+: name)) :=
      kstrHasPrefix_eq (by decide) hclean
    apply Extends.of_eq
    simp only [timeVisitor, cpusScanner, timeNode, hcpus, ok_bind, decide_eq_true_eq]
    split
    · rfl
    · split <;> rfl
  closing s := rfl
  property b strings ptr nameoff p s hclean _ hoff hnamed hword hvalue := by
    have hcmp := kstrcmp_named (w := "timebase-frequency") (by decide) hclean hnamed
    simp only [timeVisitor, cpusScanner, timeProp, word_eq hword hoff, ok_bind, hcmp,
      decide_eq_true_eq]
    split
    · by_cases hname : p.name = chars "timebase-frequency"
      · rw [if_pos hname, if_pos hname]
        have hhigh : Extends (word p.value 0) (word b (ptr + 8)) := word_extends hvalue
        have hlow : Extends (word p.value 4) (word b (ptr + 12)) := word_extends hvalue
        by_cases h8 : p.value.length = 8
        · rw [if_pos h8, cells, bind_assoc]
          apply hhigh.bind
          intro high
          rw [if_pos h8, bind_assoc]
          exact hlow.bind fun low => Extends.rfl
        · rw [if_neg h8]
          apply hhigh.bind
          intro high
          rw [if_neg h8]
          exact Extends.rfl
      · rw [if_neg hname, if_neg hname]
        exact Extends.rfl
    · exact Extends.rfl

/-- A value of one word or two. -/
def OneOrTwo (ps : List Property) : Prop :=
  ∀ p ∈ ps, p.name = chars "timebase-frequency" → p.value.length = 4 ∨ p.value.length = 8

instance (ps : List Property) : Decidable (OneOrTwo ps) :=
  inferInstanceAs (Decidable (∀ p ∈ ps, _ → _))

/-- The last value of the property wins. -/
theorem time_props {ps : List Property} (h : OneOrTwo ps) :
    (below timeNode timeProp).props ps x =
      .ok ((lastNamed "timebase-frequency" ps).elim x beValue) := by
  induction ps generalizing x with
  | nil => rfl
  | cons p ps ih =>
    have hrest : OneOrTwo ps := fun q hq => h q (List.mem_cons_of_mem p hq)
    have hp : timeProp p x =
        .ok (if p.name = chars "timebase-frequency" then beValue p.value else x) := by
      rw [timeProp]
      split
      · rename_i hname
        rcases h p List.mem_cons_self hname with h4 | h8
        · rw [if_neg (by omega), word_beValue h4]
        · rw [if_pos h8, cells_beValue h8]
      · rfl
    have hstep : (below timeNode timeProp).property p x = timeProp p x := rfl
    rw [Scanner.props_cons, hstep, hp, ok_bind, ih hrest, lastNamed_cons]
    cases lastNamed "timebase-frequency" ps with
    | some v => rfl
    | none => split <;> rfl

/-- So it does among the nodes. -/
theorem time_forest (h : OneOrTwo f.properties) :
    (below timeNode timeProp).forest f x =
      .ok ((lastNamed "timebase-frequency" f.properties).elim x beValue) := by
  induction f generalizing x with
  | nil => rfl
  | node name ps children rest ihc ihr =>
    rw [Forest.properties_node] at h ⊢
    have hps : OneOrTwo ps := fun p hp => h p (List.mem_append_left _ hp)
    have hc : OneOrTwo children.properties := fun p hp =>
      h p (List.mem_append_right _ (List.mem_append_left _ hp))
    have hr : OneOrTwo rest.properties := fun p hp =>
      h p (List.mem_append_right _ (List.mem_append_right _ hp))
    have hopen : (below timeNode timeProp).opening name x = .ok x := rfl
    rw [Scanner.forest, hopen, ok_bind, time_props hps, ok_bind, ihc hc, ok_bind]
    refine (ihr hr).trans ?_
    rw [lastNamed_append, lastNamed_append]
    cases lastNamed "timebase-frequency" rest.properties with
    | some v => rfl
    | none =>
      cases lastNamed "timebase-frequency" children.properties with
      | some v => rfl
      | none => rfl

/-- The walks count the processors of the tree, and find the last timebase among them. -/
theorem cpus_found {hart freq : Nat} (hb : Flattened b t) (hone : t.nodes.filter (IsCpus ·) = [n])
    (htime : OneOrTwo (n.props ++ n.children.properties)) :
    dtbParserHart b hart = .ok (hart + n.children.nodes.countP (IsCpu ·)) ∧
      dtbParserTime b freq =
        .ok ((lastNamed "timebase-frequency" (n.props ++ n.children.properties)).elim
          freq beValue) := by
  constructor
  · have hscan : (cpusScanner hartNode hartProp).forest t ⟨0, hart⟩ =
        .ok ⟨0, hart + n.children.nodes.countP (IsCpu ·)⟩ := by
      rw [cpus_forest hartNode hartProp hone, hart_props, ok_bind, hart_forest, ok_bind]
    have hparse := parser_extends reads_hart hb (s := ⟨0, hart⟩) (by rw [hscan]; simp)
    rw [dtbParserHart, hparse, hscan]
    rfl
  · have hps : OneOrTwo n.props := fun p hp => htime p (List.mem_append_left _ hp)
    have hc : OneOrTwo n.children.properties := fun p hp => htime p (List.mem_append_right _ hp)
    have hscan : (cpusScanner timeNode timeProp).forest t ⟨0, freq⟩ = .ok ⟨0,
        (lastNamed "timebase-frequency" (n.props ++ n.children.properties)).elim freq beValue⟩ := by
      rw [cpus_forest timeNode timeProp hone, time_props hps, ok_bind, time_forest hc, ok_bind,
        lastNamed_append]
      cases lastNamed "timebase-frequency" n.children.properties with
      | some v => rfl
      | none => rfl
    have hparse := parser_extends reads_time hb (s := ⟨0, freq⟩) (by rw [hscan]; simp)
    rw [dtbParserTime, hparse, hscan]
    rfl

/-- Two processors with a timebase of 10 MHz. -/
def twoCpus : Trees :=
  .node [] [] (.node (chars "cpus") [⟨chars "timebase-frequency", be32 10000000⟩]
    (.node (chars "cpu@0") [⟨chars "reg", be32 0⟩] .nil (.node (chars "cpu@1") [] .nil .nil)) .nil)
      .nil

/-- Two harts and a timebase. -/
theorem cpus_found_two :
    dtbParserHart (blobOf twoCpus) 0 = .ok 2 ∧ dtbParserTime (blobOf twoCpus) 0 = .ok 10000000 :=
  cpus_found (flattened_blobOf (by decide) (by decide))
    (n := ⟨chars "cpus", [⟨chars "timebase-frequency", be32 10000000⟩],
      .node (chars "cpu@0") [⟨chars "reg", be32 0⟩] .nil (.node (chars "cpu@1") [] .nil .nil)⟩)
    rfl (by decide)

end RexOS.Dtb
