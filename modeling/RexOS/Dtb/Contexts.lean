import RexOS.Dtb.Compatible

/-!
# The interrupt context of the kernel

`dtb_parser_context` takes every node whose name begins with `plic@` for the interrupt controller.
Each list of interrupts of such a node is searched for interrupt 9, and the last one tells.
-/

namespace RexOS.Dtb

variable {b : Blob} {t f : Trees} {n : Node (List UInt8) Property} {v : List UInt8}
  {q i k idx : Nat} {s : ContextScan}

/-- The interrupt of pair `i`. -/
def interruptAt (v : List UInt8) (i : Nat) : Nat := beValue ((v.drop (8 * i + 4)).take 4)

/-- The first pair with interrupt 9. -/
def firstNine (v : List UInt8) : Option Nat :=
  (List.range (v.length / 8)).find? fun i => interruptAt v i = 9

/-- What a list of interrupts comes to. -/
def contextOf (v : List UInt8) : Read Nat := (firstNine v).elim (.error (.panic 117)) .ok

/-- The lists of interrupts that the parser takes. -/
def contextLists (nodes : List (Node (List UInt8) Property)) : List (List UInt8) :=
  nodes.flatMap fun n =>
    if chars "plic@" <+: n.name then valuesNamed "interrupts-extended" n.props else []

/-- The lists of some nodes and of some more. -/
theorem contextLists_append (ms ns : List (Node (List UInt8) Property)) :
    contextLists (ms ++ ns) = contextLists ms ++ contextLists ns := List.flatMap_append

/-- The lists of one node and of the others. -/
theorem contextLists_cons (ns : List (Node (List UInt8) Property)) : contextLists (n :: ns) =
    (if chars "plic@" <+: n.name then valuesNamed "interrupts-extended" n.props else []) ++
      contextLists ns := List.flatMap_cons

/-- One list after the other. -/
def contexts (vs : List (List UInt8)) (idx : Nat) : Read Nat :=
  vs.foldlM (fun _ v => contextOf v) idx

/-- Some lists and then some more. -/
theorem contexts_append (vs ws : List (List UInt8)) (idx : Nat) :
    contexts (vs ++ ws) idx = contexts vs idx >>= contexts ws := List.foldlM_append

def contextScanner : Scanner (List UInt8) Property Stop ContextScan where
  opening name s := .ok { s with insidePlicContext := decide (chars "plic@" <+: name) }
  property p s :=
    if s.insidePlicContext = true ∧ p.name = chars "interrupts-extended" then do
      let i ← seekNine p.value 0 (p.value.length / 8) 0
      if i < p.value.length / 8 then pure { s with contextIdx := i } else .error (.panic 117)
    else .ok s
  closing s := s

/-- The search reads within its value. -/
theorem seekNine_extends (h : Placed b q v) : Extends (seekNine v 0 k i) (seekNine b q k i) := by
  induction k generalizing i with
  | zero => exact Extends.rfl
  | succ k ih =>
    rw [seekNine, seekNine, Nat.zero_add]
    apply (word_extends h).bind
    intro x
    by_cases hx : x ≠ 0x9
    · rw [if_pos hx, if_pos hx]
      exact ih
    · rw [if_neg hx, if_neg hx]
      exact Extends.rfl

/-- A word of a value. -/
theorem word_value {o : Nat} (h : o + 4 ≤ v.length) :
    word v o = .ok (beValue ((v.drop o).take 4)) := by
  have hplaced : Placed v o ((v.drop o).take 4) := List.take_prefix 4 _
  have hlen : ((v.drop o).take 4).length = 4 := by
    rw [List.length_take, List.length_drop]
    omega
  have hword := word_extends (o := 0) hplaced
  rw [word_beValue hlen] at hword
  exact hword (by simp)

/-- The search finds the first pair, or ends behind the last. -/
theorem seekNine_eq (h : i + k = v.length / 8) : seekNine v 0 k i =
    .ok (((List.range' i k).find? fun i => interruptAt v i = 9).getD (v.length / 8)) := by
  induction k generalizing i with
  | zero =>
    rw [seekNine, ← h]
    rfl
  | succ k ih =>
    have hat : 0 + 4 * (i + (i + 1)) = 8 * i + 4 := by omega
    rw [seekNine, hat, word_value (by omega), ok_bind, List.range'_succ, List.find?_cons]
    have hint : beValue ((v.drop (8 * i + 4)).take 4) = interruptAt v i := rfl
    rw [hint]
    by_cases hx : interruptAt v i = 9
    · rw [if_neg (not_not.mpr hx), decide_eq_true hx]
      rfl
    · rw [if_pos hx, decide_eq_false hx]
      exact ih (by omega)

/-- What it finds is a pair of the value. -/
theorem firstNine_lt (h : firstNine v = some i) : i < v.length / 8 :=
  List.mem_range.mp (List.mem_of_find?_eq_some h)

/-- One property of a node for the controller. -/
theorem context_property {p : Property} (hname : p.name = chars "interrupts-extended") :
    contextScanner.property p ⟨true, idx⟩ = contextOf p.value >>= fun i => .ok ⟨true, i⟩ := by
  have hseek := seekNine_eq (v := p.value) (i := 0) (k := p.value.length / 8) (Nat.zero_add _)
  rw [← List.range_eq_range'] at hseek
  have hfirst : (List.range (p.value.length / 8)).find? (fun i => interruptAt p.value i = 9) =
      firstNine p.value := rfl
  rw [hfirst] at hseek
  show (if true = true ∧ p.name = chars "interrupts-extended" then _ else _) = _
  rw [if_pos ⟨rfl, hname⟩, hseek, ok_bind, contextOf]
  cases hnine : firstNine p.value with
  | none =>
    rw [Option.getD_none, if_neg (Nat.lt_irrefl _)]
    rfl
  | some i =>
    rw [Option.getD_some, if_pos (firstNine_lt hnine)]
    rfl

/-- The visitor reads as the scanner does. -/
theorem reads_context : Reads contextVisitor contextScanner where
  opening name rest s hclean := by
    have hprefix : kstrHasPrefix (cstr "plic@") (name ++ 0 :: rest) =
        .ok (decide (chars "plic@" <+: name)) := kstrHasPrefix_eq (by decide) hclean
    apply Extends.of_eq
    simp only [contextVisitor, contextScanner, hprefix, ok_bind]
    rfl
  closing s := rfl
  property b strings ptr nameoff p s hclean _ hoff hnamed hword hvalue := by
    have hcmp := kstrcmp_named (w := "interrupts-extended") (by decide) hclean hnamed
    simp only [contextVisitor, contextScanner, word_eq hword hoff, ok_bind, hcmp, decide_eq_true_eq]
    by_cases hin : s.insidePlicContext = true
    · by_cases hname : p.name = chars "interrupts-extended"
      · rw [if_pos ⟨hin, hname⟩, if_pos hin, if_pos hname]
        exact (seekNine_extends hvalue).bind fun i => Extends.rfl
      · rw [if_neg fun h => hname h.2, if_pos hin, if_neg hname]
        exact Extends.rfl
    · rw [if_neg fun h => hin h.1, if_neg hin]
      exact Extends.rfl

/-! ## The trees -/

/-- The properties of a node are those of the controller, or none. -/
theorem context_props (ps : List Property) (inside : Bool) :
    contextScanner.props ps ⟨inside, idx⟩ =
      contexts (if inside = true then valuesNamed "interrupts-extended" ps else []) idx >>=
        fun i => .ok ⟨inside, i⟩ := by
  induction ps generalizing idx with
  | nil => cases inside <;> rfl
  | cons p ps ih =>
    cases inside with
    | false =>
      have hstep : contextScanner.property p ⟨false, idx⟩ = .ok ⟨false, idx⟩ := rfl
      rw [Scanner.props_cons, hstep, ok_bind]
      exact ih
    | true =>
      rw [Scanner.props_cons]
      by_cases hname : p.name = chars "interrupts-extended"
      · have hvalues : valuesNamed "interrupts-extended" (p :: ps) =
            [p.value] ++ valuesNamed "interrupts-extended" ps := by
          simp [valuesNamed, hname]
        have hone : contexts [p.value] idx = contextOf p.value := bind_pure _
        rw [context_property hname, if_pos rfl, hvalues, contexts_append, hone,
          bind_assoc, bind_assoc]
        apply bind_congr
        intro i
        rw [ok_bind]
        exact ih
      · have hvalues : valuesNamed "interrupts-extended" (p :: ps) =
            valuesNamed "interrupts-extended" ps := by
          simp [valuesNamed, hname]
        have hstep : contextScanner.property p ⟨true, idx⟩ = .ok ⟨true, idx⟩ :=
          if_neg fun h => hname h.2
        rw [hstep, ok_bind, hvalues]
        exact ih

/-- The scan searches the lists. -/
theorem context_forest (f : Trees) (s : ContextScan) :
    (contextScanner.forest f s >>= fun s => .ok s.contextIdx) =
      contexts (contextLists f.nodes) s.contextIdx := by
  induction f generalizing s with
  | nil => rfl
  | node name ps children rest ihc ihr =>
    have hopen : contextScanner.opening name s =
        .ok ⟨decide (chars "plic@" <+: name), s.contextIdx⟩ := rfl
    rw [Scanner.forest, hopen, ok_bind, context_props, Forest.nodes_node, contextLists_cons,
      contextLists_append, contexts_append]
    simp only [decide_eq_true_eq, bind_assoc, ok_bind]
    apply bind_congr
    intro i
    rw [contexts_append, ← ihc ⟨decide (chars "plic@" <+: name), i⟩, bind_assoc]
    apply bind_congr
    intro u
    exact ihr u

/-- The searches panic, or the last one tells. -/
theorem contexts_eq (vs : List (List UInt8)) (idx : Nat) : contexts vs idx =
    if ∃ v ∈ vs, firstNine v = none then .error (.panic 117)
    else .ok (vs.getLast?.elim idx fun v => (firstNine v).getD 0) := by
  induction vs generalizing idx with
  | nil => rfl
  | cons v vs ih =>
    have hcons : contexts (v :: vs) idx = contextOf v >>= contexts vs := rfl
    have hexists : (∃ u ∈ v :: vs, firstNine u = none) ↔
        firstNine v = none ∨ ∃ u ∈ vs, firstNine u = none := by
      simp only [List.mem_cons, exists_eq_or_imp]
    rw [hcons, contextOf]
    cases hv : firstNine v with
    | none =>
      rw [if_pos (hexists.mpr (Or.inl hv))]
      rfl
    | some i =>
      have hlast : (v :: vs).getLast?.elim idx (fun v => (firstNine v).getD 0) =
          vs.getLast?.elim i fun v => (firstNine v).getD 0 := by
        rw [show v :: vs = [v] ++ vs from rfl, getLast?_elim_append, List.getLast?_singleton,
          Option.elim_some, hv, Option.getD_some]
      rw [Option.elim_some, ok_bind, ih, hlast]
      simp only [hexists, hv, reduceCtorEq, false_or]

/-- So the parser counts over the lists of the tree. -/
theorem dtbParserContext_eq (hb : Flattened b t) :
    dtbParserContext b idx = contexts (contextLists t.nodes) idx := by
  have hscan := context_forest t ⟨false, idx⟩
  have hparse := parser_extends reads_context hb (s := ⟨false, idx⟩) (by
    intro hout
    rw [hout, contexts_eq] at hscan
    split at hscan <;> cases hscan)
  rw [dtbParserContext, hparse]
  exact hscan

/-- The first pair of interrupt 9 that the node itself has. -/
def ownContext (n : Node (List UInt8) Property) : Option Nat :=
  (lastNamed "interrupts-extended" n.props).bind firstNine

/-- What the nodes that the parser takes say is what `n` says. -/
def SameContext (t : Trees) (n : Node (List UInt8) Property) (idx : Nat) : Prop :=
  match ownContext n with
  | none => ∃ v ∈ contextLists t.nodes, firstNine v = none
  | some i => (∀ v ∈ contextLists t.nodes, firstNine v ≠ none) ∧
    (contextLists t.nodes).getLast?.elim (idx = i) fun v => firstNine v = some i

/-- The parser finds the context of the node, or panics where there is none, if and only if the
nodes that it takes for the controller say the same. -/
theorem context_iff (hb : Flattened b t) (n : Node (List UInt8) Property) (idx : Nat) :
    dtbParserContext b idx = (ownContext n).elim (.error (.panic 117)) .ok ↔
      SameContext t n idx := by
  rw [dtbParserContext_eq hb, contexts_eq, SameContext]
  cases ownContext n with
  | none =>
    by_cases hnone : ∃ v ∈ contextLists t.nodes, firstNine v = none
    · simp [hnone]
    · simp [hnone]
  | some i =>
    by_cases hnone : ∃ v ∈ contextLists t.nodes, firstNine v = none
    · have hall : ¬∀ v ∈ contextLists t.nodes, firstNine v ≠ none := fun h =>
        hnone.elim fun v hv => h v hv.1 hv.2
      simp [hnone, hall]
    · have hall : ∀ v ∈ contextLists t.nodes, firstNine v ≠ none := fun v hv he => hnone ⟨v, hv, he⟩
      rw [if_neg hnone, Option.elim_some, Except.ok.injEq]
      have hboth : ∀ P : Prop, ((∀ v ∈ contextLists t.nodes, firstNine v ≠ none) ∧ P) ↔ P :=
          fun P =>
        and_iff_right hall
      refine Iff.trans ?_ (hboth _).symm
      cases hlast : (contextLists t.nodes).getLast? with
      | none => exact Iff.rfl
      | some v =>
        obtain ⟨j, hj⟩ := Option.ne_none_iff_exists'.mp (hall v (List.mem_of_getLast? hlast))
        simp [hj]

/-- A controller under the name that its binding asks for. -/
def namedByBinding : Trees :=
  .node [] []
    (.node (chars "interrupt-controller@c000000")
      [⟨chars "compatible", chars "sifive,plic-1.0.0" ++ [0]⟩,
        ⟨chars "interrupts-extended", be32 1 ++ be32 11 ++ be32 1 ++ be32 9⟩] .nil .nil) .nil

/-- Pair 1 has interrupt 9, but the context stays 0. -/
theorem context_by_name : ∃ n, Flattened (blobOf namedByBinding) namedByBinding ∧
    namedByBinding.nodes.filter (Device.plic.Of ·) = [n] ∧ ownContext n = some 1 ∧
    dtbParserContext (blobOf namedByBinding) 0 = .ok 0 := by
  have hb : Flattened (blobOf namedByBinding) namedByBinding :=
    flattened_blobOf (by decide +kernel) (by decide +kernel)
  exact ⟨_, hb, rfl, by decide, by decide +kernel⟩

/-- The controller as QEMU names it. -/
def namedPlic : Node (List UInt8) Property where
  name := chars "plic@c000000"
  props := [⟨chars "compatible", chars "sifive,plic-1.0.0" ++ [0]⟩,
    ⟨chars "interrupts-extended", be32 1 ++ be32 11 ++ be32 1 ++ be32 9⟩]
  children := .nil

/-- A controller with its contexts. -/
theorem context_iff_plic : dtbParserContext
    (blobOf (.node [] [] (.node namedPlic.name namedPlic.props .nil .nil) .nil)) 0 = .ok 1 := by
  have hb : Flattened (blobOf (.node [] [] (.node namedPlic.name namedPlic.props .nil .nil) .nil))
      (.node [] [] (.node namedPlic.name namedPlic.props .nil .nil) .nil) :=
    flattened_blobOf (by decide +kernel) (by decide +kernel)
  refine (context_iff hb namedPlic 0).mpr ?_
  have hown : ownContext namedPlic = some 1 := by decide
  have hlists :
    contextLists (Forest.node [] [] (.node namedPlic.name namedPlic.props .nil .nil) .nil
      : Trees).nodes = [be32 1 ++ be32 11 ++ be32 1 ++ be32 9] := by decide
  rw [SameContext, hown, hlists]
  exact ⟨by decide, (by decide : firstNine (be32 1 ++ be32 11 ++ be32 1 ++ be32 9) = some 1)⟩

end RexOS.Dtb
