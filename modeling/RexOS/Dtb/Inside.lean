import RexOS.Dtb.Ends
import RexOS.Dtb.Writer

/-!
# Walks over any blob

The walks check only where a token begins. They stay inside the blob if and only if the blob is a
row of complete tokens as far as they go, and what they read for a property, its name, the words
and the strings of its value, lies in the blob as well.
-/

namespace RexOS.Dtb

open Kalloc

variable {σ α : Type} {b : Blob} {p n x strings stop endTk endDtb : Nat} {name rest : List UInt8}
  {s : σ}

/-- A token that means something to a walk. -/
inductive Entry where
  | node (name : List UInt8)
  | close
  | prop (value len nameoff : Nat)

variable {es : List Entry}

/-- From `p` on the blob is a row of complete tokens up to `stop`. -/
inductive Tokens (b : Blob) (stop : Nat) : Nat → List Entry → Prop
  | stop {p : Nat} (h : stop ≤ p) : Tokens b stop p []
  | node {p : Nat} {name : List UInt8} {es : List Entry} (h : p < stop)
      (token : Placed b p (be32 1))
      (named : Placed b (p + 4) (name ++ [0])) (clean : 0 ∉ name)
      (rest : Tokens b stop (p + 4 + skip (name.length + 1)) es) :
      Tokens b stop p (.node name :: es)
  | close {p : Nat} {es : List Entry} (h : p < stop) (token : Placed b p (be32 2))
      (rest : Tokens b stop (p + 4) es) :
      Tokens b stop p (.close :: es)
  | prop {p len nameoff : Nat} {es : List Entry} (h : p < stop) (token : Placed b p (be32 3))
      (length : Placed b (p + 4) (be32 len)) (name : Placed b (p + 8) (be32 nameoff))
      (small : len < 2 ^ 32 ∧ nameoff < 2 ^ 32) (rest : Tokens b stop (p + 4 + 8 + skip len) es) :
      Tokens b stop p (.prop (p + 4 + 8) len nameoff :: es)
  | other {p x : Nat} {es : List Entry} (h : p < stop) (token : Placed b p (be32 x))
      (small : x < 2 ^ 32)
      (h₁ : x ≠ 1) (h₂ : x ≠ 2) (h₃ : x ≠ 3) (rest : Tokens b stop (p + 4) es) : Tokens b stop p es

/-! ## What each walk reads -/

/-- `ptr` is the name of a property. -/
def Named (b : Blob) (ptr : Nat) (w : String) : Prop := cstr w <+: b.drop ptr

instance (b : Blob) (ptr : Nat) (w : String) : Decidable (Named b ptr w) :=
  inferInstanceAs (Decidable (_ <+: _))

/-- A comparison of the name at `ptr` ends inside the blob. -/
def Compared (b : Blob) (ptr : Nat) (w : String) : Prop := ¬Cut (b.drop ptr) w

def RamFits (b : Blob) (strings : Nat) : Bool → List Entry → Prop
  | _, [] => True
  | _, .node name :: es => RamFits b strings (decide (chars "memory" <+: name)) es
  | inside, .close :: es => RamFits b strings inside es
  | inside, .prop value _ nameoff :: es =>
    (inside = true → Compared b (strings + nameoff) "reg" ∧
      (Named b (strings + nameoff) "reg" → value + 16 ≤ b.length)) ∧ RamFits b strings inside es

def TimeFits (b : Blob) (strings : Nat) : Nat → List Entry → Prop
  | _, [] => True
  | depth, .node name :: es => TimeFits b strings
      (if chars "cpus" <+: name then 1 else if depth > 0 then depth + 1 else depth) es
  | depth, .close :: es => TimeFits b strings (depth - 1) es
  | depth, .prop value len nameoff :: es =>
    (depth > 0 → Compared b (strings + nameoff) "timebase-frequency" ∧
      (Named b (strings + nameoff) "timebase-frequency" →
        value + 4 ≤ b.length ∧ (len = 8 → value + 8 ≤ b.length))) ∧ TimeFits b strings depth es

/-- One of the pairs has interrupt 9. -/
def HasNine (b : Blob) (value pairs : Nat) :
    Prop := ∃ i < pairs, Placed b (value + 8 * i + 4) (be32 9)

def ContextFits (b : Blob) (strings : Nat) : Bool → List Entry → Prop
  | _, [] => True
  | _, .node name :: es => ContextFits b strings (decide (chars "plic@" <+: name)) es
  | inside, .close :: es => ContextFits b strings inside es
  | inside, .prop value len nameoff :: es =>
    (inside = true → Compared b (strings + nameoff) "interrupts-extended") ∧
      if inside = true ∧ Named b (strings + nameoff) "interrupts-extended" then
        (HasNine b value (len / 8) ∧ ContextFits b strings inside es) ∨
          (¬HasNine b value (len / 8) ∧ (len / 8 = 0 ∨ value + 8 * (len / 8) ≤ b.length))
      else ContextFits b strings inside es

/-- The searches for two models, the second one made where the first finds nothing. -/
def EitherScans (str : List UInt8) (len : Nat) (w₁ w₂ : String) : Prop :=
  Scans str w₁ len 0 true ∨ (Scans str w₁ len 0 false ∧ ∃ found, Scans str w₂ len 0 found)

/-- The searches in a `compatible` list end inside the blob. -/
def ListFits (str : List UInt8) (len : Nat) : Prop :=
  (∃ found, Scans str "ns16550a" len 0 found) ∧ EitherScans str len "sifive,clint0" "riscv,clint0" ∧
    EitherScans str len "riscv,plic0" "sifive,plic-1.0.0"

def MmioFits (b : Blob) (strings : Nat) : List Entry → Prop
  | [] => True
  | .node _ :: es => MmioFits b strings es
  | .close :: es => MmioFits b strings es
  | .prop value len nameoff :: es =>
    Compared b (strings + nameoff) "compatible" ∧
      (Named b (strings + nameoff) "compatible" → ListFits (b.drop value) len) ∧
      Compared b (strings + nameoff) "reg" ∧
      (Named b (strings + nameoff) "reg" →
        (len ≥ 16 → value + 16 ≤ b.length) ∧ (8 ≤ len → value + 8 ≤ b.length)) ∧
      MmioFits b strings es

/-- The blob has a whole header. -/
structure Header (b : Blob) (offDtStruct offDtStrings sizeDtStruct : Nat) : Prop where
  offStruct : offDtStruct < 2 ^ 32 ∧ Placed b 8 (be32 offDtStruct)
  offStrings : offDtStrings < 2 ^ 32 ∧ Placed b 12 (be32 offDtStrings)
  sizeStruct : sizeDtStruct < 2 ^ 32 ∧ Placed b 36 (be32 sizeDtStruct)

/-- All that the walks read lies in the blob. -/
def Contained (b : Blob) : Prop := ∃ offDtStruct offDtStrings sizeDtStruct es,
  Header b offDtStruct offDtStrings sizeDtStruct ∧
  Tokens b (min (offDtStruct + 4 * (sizeDtStruct / 4)) b.length) offDtStruct es ∧
  RamFits b offDtStrings false es ∧ TimeFits b offDtStrings 0 es ∧
  ContextFits b offDtStrings false es ∧ MmioFits b offDtStrings es

/-! ## One walk -/

/-- `Fits` says when a walk stays inside the blob. -/
structure Follows (V : Visitor σ) (b : Blob) (strings : Nat) (Fits : σ → List Entry → Prop) :
    Prop where
  stop : ∀ s, Fits s []
  node : ∀ name rest s es, 0 ∉ name →
    (Ends (V.beginNode (name ++ 0 :: rest) s) (fun s => Fits s es) ↔ Fits s (.node name :: es))
  close : ∀ s es, Fits (V.endNode s) es ↔ Fits s (.close :: es)
  prop : ∀ ptr len nameoff s es, Placed b (ptr + 4) (be32 nameoff) → nameoff < 2 ^ 32 →
    (Ends (V.prop b strings ptr len s) (fun s => Fits s es) ↔
      Fits s (.prop (ptr + 8) len nameoff :: es))

/-- The walk stays inside exactly when all that it visits does. -/
theorem walk_ends {V : Visitor σ} {Fits : σ → List Entry → Prop} (hF : Follows V b strings Fits)
    (ht : Tokens b (min endTk endDtb) p es) (hn : 1 ≤ n) (hfuel : b.length + 1 ≤ n + p) :
    Ends (walk V b strings endTk endDtb n p s) (fun _ => True) ↔ Fits s es := by
  induction ht generalizing n s with
  | stop h =>
    obtain ⟨n, rfl⟩ := Nat.exists_eq_add_of_le' hn
    rw [walk, if_neg (by omega), ends_ok, true_iff]
    exact hF.stop s
  | @node p name es h token named clean rest ih =>
    obtain ⟨n, rfl⟩ := Nat.exists_eq_add_of_le' hn
    have hle := named.length_le (by simp)
    obtain ⟨tail, htail⟩ := named.drop_eq
    rw [List.append_assoc, List.singleton_append] at htail
    rw [walk, if_pos (by omega), word_eq token (by decide), ok_bind, if_pos rfl, htail, ends_bind,
      ← hF.node name tail s es clean]
    apply ends_congr
    intro s
    rw [kstrlen_eq clean, ok_bind]
    exact ih (by omega) (by omega)
  | @close p es h token rest ih =>
    obtain ⟨n, rfl⟩ := Nat.exists_eq_add_of_le' hn
    have hle := token.length_le (by simp [be32])
    rw [be32_length] at hle
    rw [walk, if_pos (by omega), word_eq token (by decide), ok_bind, if_neg (by decide), if_pos rfl,
      ← hF.close]
    exact ih (by omega) (by omega)
  | @prop p len nameoff es h token length name small rest ih =>
    obtain ⟨n, rfl⟩ := Nat.exists_eq_add_of_le' hn
    have hle := name.length_le (by simp [be32])
    rw [be32_length] at hle
    rw [walk, if_pos (by omega), word_eq token (by decide), ok_bind, if_neg (by decide),
      if_neg (by decide), if_pos rfl, word_eq length small.1, ok_bind, ends_bind,
      ← hF.prop (p + 4) len nameoff s es name small.2]
    apply ends_congr
    intro s
    exact ih (by omega) (by omega)
  | @other p x es h token small h₁ h₂ h₃ rest ih =>
    obtain ⟨n, rfl⟩ := Nat.exists_eq_add_of_le' hn
    have hle := token.length_le (by simp [be32])
    rw [be32_length] at hle
    rw [walk, if_pos (by omega), word_eq token small, ok_bind, if_neg h₁, if_neg h₂, if_neg h₃]
    exact ih (by omega) (by omega)

/-! ## The five walks -/

/-- A branch on the name of a property. -/
theorem ends_named {w : String} (hw : 0 ∉ chars w) (ptr : Nat) (y z : Read α) (P : α → Prop) :
    Ends (kstrcmp (cstr w) (b.drop ptr) >>= fun same => if same = true then y else z) P ↔
      Compared b ptr w ∧ if Named b ptr w then Ends y P else Ends z P := by
  rw [ends_bind, ends_kstrcmp hw, Compared]
  by_cases hname : Named b ptr w
  · have hname' : cstr w <+: b.drop ptr := hname
    rw [decide_eq_true hname', if_pos rfl, if_pos hname]
  · have hname' : ¬cstr w <+: b.drop ptr := hname
    rw [decide_eq_false hname', if_neg (by decide), if_neg hname]

/-- What is read only where something holds. -/
theorem fits_iff {named : Prop} [Decidable named] {X Y Z : Prop} :
    (X ∧ if named then Y ∧ Z else Z) ↔ (X ∧ (named → Y)) ∧ Z := by
  split
  · rename_i h
    simp only [h, forall_const, and_assoc]
  · rename_i h
    simp only [h, false_imp_iff, and_true]

/-- What the memory parser reads of an entry. -/
theorem follows_ram (b : Blob) (strings : Nat) :
    Follows ramVisitor b strings fun s es => RamFits b strings s.insideMemory es where
  stop _ := trivial
  node name rest s es hclean := by
    have hprefix : kstrHasPrefix (cstr "memory") (name ++ 0 :: rest) =
        .ok (decide (chars "memory" <+: name)) := kstrHasPrefix_eq (by decide) hclean
    simp only [ramVisitor, hprefix, ok_bind, ends_pure]
    exact Iff.rfl
  close _ _ := Iff.rfl
  prop ptr len nameoff s es hoff hsmall := by
    simp only [ramVisitor, word_eq hoff hsmall, ok_bind, RamFits]
    by_cases hin : s.insideMemory = true
    · have hsize :
        ∀ base, Ends (cells b (ptr + 16) >>= fun size => pure { s with ram := ⟨base, size⟩ })
          (fun s => RamFits b strings s.insideMemory es) ↔
            ptr + 16 + 8 ≤ b.length ∧ RamFits b strings s.insideMemory es := by
        intro base
        rw [ends_bind]
        exact ends_cells_iff (RamFits b strings s.insideMemory es)
      have hboth : ∀ Q : Prop, (ptr + 8 + 8 ≤ b.length ∧ ptr + 16 + 8 ≤ b.length ∧ Q) ↔
          ptr + 8 + 16 ≤ b.length ∧ Q := fun Q =>
        ⟨fun h => ⟨by omega, h.2.2⟩, fun h => ⟨by omega, by omega, h.2⟩⟩
      rw [if_pos hin, ends_named (by decide), ends_bind, ends_congr hsize, ends_cells_iff, hboth,
        ends_pure, fits_iff, and_congr_left_iff]
      exact fun _ => ⟨fun h _ => h, fun h => h hin⟩
    · rw [if_neg hin, ends_pure]
      exact (and_iff_right fun h => absurd h hin).symm

/-- What the timebase parser reads of an entry. -/
theorem follows_time (b : Blob) (strings : Nat) :
    Follows timeVisitor b strings fun s es => TimeFits b strings s.cpusDepth es where
  stop _ := trivial
  node name rest s es hclean := by
    have hcpus :
        kstrHasPrefix (cstr "cpus") (name ++ 0 :: rest) = .ok (decide (chars "cpus" <+: name)) :=
      kstrHasPrefix_eq (by decide) hclean
    simp only [timeVisitor, hcpus, ok_bind, decide_eq_true_eq, TimeFits]
    split
    · exact Iff.rfl
    · split <;> exact Iff.rfl
  close s es := by
    show TimeFits b strings (if s.cpusDepth >
      0 then { s with cpusDepth := s.cpusDepth - 1 } else s).cpusDepth
      es ↔ TimeFits b strings (s.cpusDepth - 1) es
    split
    · exact Iff.rfl
    · have hzero : s.cpusDepth - 1 = s.cpusDepth := by omega
      rw [hzero]
  prop ptr len nameoff s es hoff hsmall := by
    simp only [timeVisitor, word_eq hoff hsmall, ok_bind, TimeFits]
    by_cases hin : s.cpusDepth > 0
    · have hlow : ∀ freq, Ends (if len = 8 then do
            let low ← word b (ptr + 12)
            pure { s with global := freq <<< 32 ||| low }
          else pure { s with global := freq }) (fun s => TimeFits b strings s.cpusDepth es) ↔
            (len = 8 → ptr + 8 + 8 ≤ b.length) ∧ TimeFits b strings s.cpusDepth es := by
        intro freq
        by_cases h8 : len = 8
        · rw [if_pos h8, ends_bind]
          refine (ends_word_iff (TimeFits b strings s.cpusDepth es)).trans ?_
          simp only [h8, forall_const]
        · rw [if_neg h8, ends_pure]
          exact (and_iff_right fun h => absurd h h8).symm
      rw [if_pos hin, ends_named (by decide), ends_bind, ends_congr hlow,
        ends_word_iff, ← and_assoc, ends_pure, fits_iff, and_congr_left_iff]
      exact fun _ => ⟨fun h _ => h, fun h => h hin⟩
    · rw [if_neg hin, ends_pure]
      exact (and_iff_right fun h => absurd h hin).symm

/-- The hart parser reads names only. -/
theorem follows_hart (b : Blob) (strings : Nat) :
    Follows hartVisitor b strings fun _ _ => True where
  stop _ := trivial
  node name rest s es hclean := by
    have hcpus :
        kstrHasPrefix (cstr "cpus") (name ++ 0 :: rest) = .ok (decide (chars "cpus" <+: name)) :=
      kstrHasPrefix_eq (by decide) hclean
    have hcpu :
        kstrHasPrefix (cstr "cpu@") (name ++ 0 :: rest) = .ok (decide (chars "cpu@" <+: name)) :=
      kstrHasPrefix_eq (by decide) hclean
    simp only [hartVisitor, hcpus, hcpu, ok_bind, iff_true]
    split
    · trivial
    · split <;> trivial
  close _ _ := Iff.rfl
  prop _ _ _ _ _ _ _ := Iff.rfl

/-- The search for interrupt 9 from pair `i` on, `n` pairs before the end of the list. -/
theorem ends_seekNine {q i pairs : Nat} (hi : i + n = pairs) (Q : Prop) :
    Ends (seekNine b q n i) (fun j => j < pairs → Q) ↔
      ((∃ j < pairs, i ≤ j ∧ Placed b (q + 8 * j + 4) (be32 9)) ∧ Q) ∨
        (¬(∃ j < pairs, i ≤ j ∧ Placed b (q + 8 * j + 4) (be32 9)) ∧
          (n = 0 ∨ q + 8 * pairs ≤ b.length)) := by
  induction n generalizing i with
  | zero =>
    have hnone : ¬∃ j < pairs, i ≤ j ∧ Placed b (q + 8 * j + 4) (be32 9) := by
      rintro ⟨j, hj, hij, -⟩
      omega
    rw [seekNine, ends_ok]
    simp only [hnone, false_and, not_false_eq_true, true_and, true_or, or_true, iff_true]
    exact fun hlt => absurd hlt (by omega)
  | succ n ih =>
    have hat : q + 4 * (i + (i + 1)) = q + 8 * i + 4 := by omega
    rw [seekNine, hat]
    by_cases hle : q + 8 * i + 4 + 4 ≤ b.length
    · obtain ⟨x, hx, hpl, hword⟩ := exists_word hle
      rw [hword, ok_bind]
      by_cases hnine : x = 9
      · subst hnine
        have hsome : ∃ j < pairs, i ≤ j ∧ Placed b (q + 8 * j + 4) (be32 9) :=
          ⟨i, by omega, Nat.le_refl i, hpl⟩
        rw [if_neg (by decide), ends_pure]
        simp only [hsome, true_and, not_true_eq_false, false_and, or_false]
        exact forall_prop_of_true (by omega)
      · have hsame : (∃ j < pairs, i + 1 ≤ j ∧ Placed b (q + 8 * j + 4) (be32 9)) ↔
            ∃ j < pairs, i ≤ j ∧ Placed b (q + 8 * j + 4) (be32 9) := by
          constructor
          · rintro ⟨j, hj, hij, hpl'⟩
            exact ⟨j, hj, by omega, hpl'⟩
          · rintro ⟨j, hj, hij, hpl'⟩
            rcases Nat.eq_or_lt_of_le hij with rfl | hlt
            · have he := (word_eq hpl' (by decide)).symm.trans hword
              exact absurd (Except.ok.inj he).symm hnine
            · exact ⟨j, hj, hlt, hpl'⟩
        rw [if_pos hnine, ih (by omega), hsame]
        have hend : (n = 0 ∨ q + 8 * pairs ≤ b.length) ↔
            (n + 1 = 0 ∨ q + 8 * pairs ≤ b.length) := by
          omega
        rw [hend]
    · rw [word_outside hle]
      constructor
      · exact fun hout => absurd hout (ends_outside _)
      · rintro (⟨⟨j, hj, hij, hpl⟩, -⟩ | ⟨-, hend⟩)
        · have hbound := hpl.length_le (by simp [be32])
          rw [be32_length] at hbound
          omega
        · omega

/-- What the context parser reads of an entry. -/
theorem follows_context (b : Blob) (strings : Nat) :
    Follows contextVisitor b strings fun s es => ContextFits b strings s.insidePlicContext es where
  stop _ := trivial
  node name rest s es hclean := by
    have hprefix : kstrHasPrefix (cstr "plic@") (name ++ 0 :: rest) =
        .ok (decide (chars "plic@" <+: name)) := kstrHasPrefix_eq (by decide) hclean
    simp only [contextVisitor, hprefix, ok_bind, ends_pure]
    exact Iff.rfl
  close _ _ := Iff.rfl
  prop ptr len nameoff s es hoff hsmall := by
    simp only [contextVisitor, word_eq hoff hsmall, ok_bind, ContextFits]
    by_cases hin : s.insidePlicContext = true
    · have hpair : ∀ i, Ends (if i < len / 8 then pure { s with contextIdx := i }
          else .error (.panic 117)) (fun s => ContextFits b strings s.insidePlicContext es) ↔
            (i < len / 8 → ContextFits b strings s.insidePlicContext es) := by
        intro i
        by_cases hi : i < len / 8
        · rw [if_pos hi, ends_pure]
          exact ⟨fun h _ => h, fun h => h hi⟩
        · rw [if_neg hi]
          exact iff_of_true (ends_panic _) fun h => absurd h hi
      have hnine : HasNine b (ptr + 8) (len / 8) ↔
          ∃ j < len / 8, 0 ≤ j ∧ Placed b (ptr + 8 + 8 * j + 4) (be32 9) := by
        simp only [HasNine, Nat.zero_le, true_and]
      rw [if_pos hin, ends_named (by decide), ends_bind, ends_congr hpair,
        ends_seekNine (Nat.zero_add _), ← hnine, ends_pure]
      simp only [hin, forall_const, true_and]
    · have hnot :
          ¬(s.insidePlicContext = true ∧ Named b (strings + nameoff) "interrupts-extended") :=
        fun h => hin h.1
      rw [if_neg hin, ends_pure, if_neg hnot]
      exact (and_iff_right fun h => absurd h hin).symm

/-! ### The devices -/

/-- A match stays inside when its scan does. -/
theorem ends_dtbCompatibleMatch {str : List UInt8} {w : String} {len : Nat} (hw : 0 ∉ chars w)
    (hsmall : str.length < 2 ^ 32) (P : Bool → Prop) :
    Ends (dtbCompatibleMatch (cstr w) str len) P ↔ ∃ found, Scans str w len 0 found ∧ P found :=
  ends_match hw hsmall (Nat.le_add_left 1 _) (Nat.le_refl _) P

/-- So do two of them. -/
theorem ends_either {str : List UInt8} {w₁ w₂ : String} {len : Nat} (h₁ : 0 ∉ chars w₁)
    (h₂ : 0 ∉ chars w₂) (hsmall : str.length < 2 ^ 32) (Q : Prop) :
    Ends (either (dtbCompatibleMatch (cstr w₁) str len) (dtbCompatibleMatch (cstr w₂) str len))
      (fun _ => Q) ↔ EitherScans str len w₁ w₂ ∧ Q := by
  rw [either, ends_bind, ends_dtbCompatibleMatch h₁ hsmall, EitherScans]
  constructor
  · rintro ⟨found, hscan, hends⟩
    cases found with
    | true => exact ⟨Or.inl hscan, hends⟩
    | false =>
      rw [if_neg (by decide), ends_dtbCompatibleMatch h₂ hsmall] at hends
      obtain ⟨found, hscan', hQ⟩ := hends
      exact ⟨Or.inr ⟨hscan, found, hscan'⟩, hQ⟩
  · rintro ⟨hscan | ⟨hscan, found, hscan'⟩, hQ⟩
    · exact ⟨true, hscan, hQ⟩
    · refine ⟨false, hscan, ?_⟩
      rw [if_neg (by decide), ends_dtbCompatibleMatch h₂ hsmall]
      exact ⟨found, hscan', hQ⟩

/-- A device that is found reads nothing. -/
theorem ends_activate (test : Read Bool) (device : Nat) (s : MmioScan) (Q : Prop) :
    Ends (activate test device s) (fun _ => Q) ↔ Ends test fun _ => Q := by
  rw [activate, ends_bind]
  apply ends_congr
  intro found
  cases found <;> exact Iff.rfl

/-- The list of names fits. -/
theorem ends_matchDevice {str : List UInt8} {len : Nat} (hsmall : str.length < 2 ^ 32)
    (s : MmioScan)
    (Q : Prop) : Ends (matchDevice str len s) (fun _ => Q) ↔ ListFits str len ∧ Q := by
  have hplic : ∀ s, Ends (activate (either (dtbCompatibleMatch (cstr "riscv,plic0") str len)
      (dtbCompatibleMatch (cstr "sifive,plic-1.0.0") str len)) 3 s) (fun _ => Q) ↔
        EitherScans str len "riscv,plic0" "sifive,plic-1.0.0" ∧ Q := fun s => by
    rw [ends_activate, ends_either (by decide) (by decide) hsmall]
  have hclint : ∀ s, Ends (activate (either (dtbCompatibleMatch (cstr "sifive,clint0") str len)
      (dtbCompatibleMatch (cstr "riscv,clint0") str len)) 2 s >>= fun s =>
        activate (either (dtbCompatibleMatch (cstr "riscv,plic0") str len)
          (dtbCompatibleMatch (cstr "sifive,plic-1.0.0") str len)) 3 s) (fun _ => Q) ↔
        EitherScans str len "sifive,clint0" "riscv,clint0" ∧
          EitherScans str len "riscv,plic0" "sifive,plic-1.0.0" ∧ Q := fun s => by
    rw [ends_bind, ends_congr hplic, ends_activate, ends_either (by decide) (by decide) hsmall]
  rw [matchDevice, ends_bind, ends_congr hclint, ends_activate,
    ends_dtbCompatibleMatch (by decide) hsmall, ListFits, and_assoc, and_assoc, exists_and_right]

/-- The pair fits. -/
theorem ends_readReg {value len : Nat} (s : MmioScan) (Q : Prop) :
    Ends (readReg b value len s) (fun _ => Q) ↔
      ((len ≥ 16 → value + 16 ≤ b.length) ∧ (8 ≤ len → value + 8 ≤ b.length)) ∧ Q := by
  unfold readReg
  by_cases h16 : len ≥ 16
  · have hsize : ∀ base, Ends (cells b (value + 8) >>= fun size =>
        pure { s with base := base, size := size }) (fun _ => Q) ↔ value + 8 + 8 ≤ b.length ∧
          Q := by
      intro base
      rw [ends_bind]
      exact ends_cells_iff Q
    rw [if_pos h16, ends_bind, ends_congr hsize, ends_cells_iff]
    constructor
    · rintro ⟨-, hle, hQ⟩
      exact ⟨⟨fun _ => by omega, fun _ => by omega⟩, hQ⟩
    · rintro ⟨⟨hle, -⟩, hQ⟩
      have hle := hle h16
      exact ⟨by omega, by omega, hQ⟩
  · rw [if_neg h16]
    by_cases h8 : len ≥ 8
    · have hsize : ∀ base, Ends (word b (value + 4) >>= fun size =>
          pure { s with base := base, size := size }) (fun _ => Q) ↔ value + 4 + 4 ≤ b.length ∧
            Q := by
        intro base
        rw [ends_bind]
        exact ends_word_iff Q
      rw [if_pos h8, ends_bind, ends_congr hsize, ends_word_iff]
      constructor
      · rintro ⟨-, hle, hQ⟩
        exact ⟨⟨fun h => absurd h h16, fun _ => by omega⟩, hQ⟩
      · rintro ⟨⟨-, hle⟩, hQ⟩
        have hle := hle h8
        exact ⟨by omega, by omega, hQ⟩
    · rw [if_neg h8, ends_pure]
      exact (and_iff_right ⟨fun h => absurd h h16, fun h => absurd h h8⟩).symm

/-- What the device parser reads of an entry. -/
theorem follows_mmio (hsmall : b.length < 2 ^ 32) (strings : Nat) :
    Follows mmioVisitor b strings fun _ es => MmioFits b strings es where
  stop _ := trivial
  node _ _ _ _ _ := Iff.rfl
  close _ _ := Iff.rfl
  prop ptr len nameoff s es hoff hlt := by
    have hdrop : (b.drop (ptr + 8)).length < 2 ^ 32 := by
      rw [List.length_drop]
      omega
    have hreg : ∀ s, Ends (kstrcmp (cstr "reg") (b.drop (strings + nameoff)) >>= fun same =>
        if same = true then readReg b (ptr + 8) len s else pure s)
          (fun _ => MmioFits b strings es) ↔
          (Compared b (strings + nameoff) "reg" ∧ (Named b (strings + nameoff) "reg" →
            (len ≥ 16 → ptr + 8 + 16 ≤ b.length) ∧ (8 ≤ len → ptr + 8 + 8 ≤ b.length))) ∧
            MmioFits b strings es := by
      intro s
      rw [ends_named (by decide), ends_readReg, ends_pure, fits_iff]
    simp only [mmioVisitor, word_eq hoff hlt, ok_bind, MmioFits]
    rw [ends_named (by decide), ends_bind, ends_congr hreg, ends_matchDevice hdrop, ends_bind,
      ends_pure, hreg, fits_iff]
    simp only [and_assoc]

/-! ## The header and the tokens -/

/-- A parser stays inside when its header and its walk do. -/
theorem parser_ends {V : Visitor σ} (hmagic : Placed b 0 (be32 0xD00DFEED))
    (htotal : Placed b 4 (be32 b.length)) (hsmall : b.length < 2 ^ 32) (P : σ → Prop) :
    Ends (parser V b s) P ↔ ∃ offDtStruct offDtStrings sizeDtStruct,
      Header b offDtStruct offDtStrings sizeDtStruct ∧
        Ends (walk V b offDtStrings (offDtStruct + 4 * (sizeDtStruct / 4)) b.length (b.length + 1)
          offDtStruct s) P := by
  rw [parser, word_eq hmagic (by decide), ok_bind, if_pos rfl]
  simp only [ends_bind, ends_word, word_eq htotal hsmall, ends_ok]
  constructor
  · rintro ⟨offDtStruct, h₁, hp₁, offDtStrings, h₂, hp₂, sizeDtStruct, h₃, hp₃, hends⟩
    exact ⟨offDtStruct, offDtStrings, sizeDtStruct, ⟨⟨h₁, hp₁⟩, ⟨h₂, hp₂⟩, ⟨h₃, hp₃⟩⟩, hends⟩
  · rintro ⟨offDtStruct, offDtStrings, sizeDtStruct, ⟨⟨h₁, hp₁⟩, ⟨h₂, hp₂⟩, ⟨h₃, hp₃⟩⟩, hends⟩
    exact ⟨offDtStruct, h₁, hp₁, offDtStrings, h₂, hp₂, sizeDtStruct, h₃, hp₃, hends⟩

/-- The walk for the memory reads every token, and never panics. -/
theorem ram_prop_returns {ptr len : Nat} {s : RamScan} {P : RamScan → Prop}
    (h : Ends (ramVisitor.prop b strings ptr len s) P) :
    ∃ nameoff < 2 ^ 32, Placed b (ptr + 4) (be32 nameoff) ∧ ∃ s, P s := by
  unfold ramVisitor at h
  simp only [ends_bind, ends_word] at h
  obtain ⟨nameoff, hlt, hpl, h⟩ := h
  refine ⟨nameoff, hlt, hpl, ?_⟩
  split at h
  · rw [ends_named (by decide)] at h
    obtain ⟨-, h⟩ := h
    split at h
    · simp only [cells, ends_bind, ends_word] at h
      obtain ⟨_, _, _, _, _, _, _, _, _, _, _, _, hP⟩ := h
      exact ⟨_, hP⟩
    · exact ⟨s, h⟩
  · exact ⟨s, h⟩

/-- A walk that ends has read tokens to their end. -/
theorem tokens_of_walk {s : RamScan}
    (h : Ends (walk ramVisitor b strings endTk endDtb n p s) fun _ => True) :
    ∃ es, Tokens b (min endTk endDtb) p es := by
  induction n generalizing p s with
  | zero => cases h
  | succ n ih =>
    rw [walk] at h
    split at h
    · rename_i hlt
      have hstop : p < min endTk endDtb := by omega
      rw [ends_bind, ends_word] at h
      obtain ⟨x, hx, htoken, h⟩ := h
      split at h
      · -- a node: its name ends
        rename_i h1
        subst h1
        have hname : ∃ r, Ends (kstrlen (b.drop (p + 4)) >>= fun len =>
            walk ramVisitor b strings endTk endDtb n (p + 4 + skip (len + 1)) r) fun _ => True := by
          have hprefix : kstrHasPrefix (chars "memory" ++ [0]) (b.drop (p + 4)) =
              if chars "memory" <+: b.drop (p + 4) then .ok true
              else if b.drop (p + 4) <+: chars "memory" then .error .outside else .ok false :=
            kstrHasPrefix_cases (by decide)
          rw [ends_bind] at h
          have hbegin : ramVisitor.beginNode (b.drop (p + 4)) s =
              kstrHasPrefix (chars "memory" ++ [0]) (b.drop (p + 4)) >>= fun inside =>
                pure { s with insideMemory := inside } := rfl
          rw [hbegin, hprefix] at h
          split at h
          · exact ⟨_, h⟩
          · split at h
            · exact absurd h (ends_outside _)
            · exact ⟨_, h⟩
        obtain ⟨r, hname⟩ := hname
        rw [ends_bind, ends_kstrlen] at hname
        obtain ⟨name, rest, hdrop, hclean, hname⟩ := hname
        obtain ⟨es, hes⟩ := ih hname
        exact ⟨_, .node hstop htoken ⟨rest, by rw [hdrop, List.append_assoc]; rfl⟩ hclean hes⟩
      · rename_i h1
        split at h
        · rename_i h2
          subst h2
          obtain ⟨es, hes⟩ := ih h
          exact ⟨_, .close hstop htoken hes⟩
        · rename_i h2
          split at h
          · rename_i h3
            subst h3
            rw [ends_bind, ends_word] at h
            obtain ⟨len, hlen, hlength, h⟩ := h
            rw [ends_bind] at h
            obtain ⟨nameoff, hoff, hname, r, h⟩ := ram_prop_returns h
            obtain ⟨es, hes⟩ := ih h
            exact ⟨_, .prop hstop htoken hlength hname ⟨hlen, hoff⟩ hes⟩
          · rename_i h3
            obtain ⟨es, hes⟩ := ih h
            exact ⟨es, .other hstop htoken hx h1 h2 h3 hes⟩
    · rename_i hlt
      exact ⟨[], .stop (by omega)⟩

/-- It returns or panics with 117, and reads nothing outside the blob. -/
def StaysInside (r : Read α) : Prop := (∃ a, r = .ok a) ∨ r = .error (.panic 117)

/-- What is done with the result reads nothing. -/
theorem staysInside_bind {r : Read σ} {f : σ → α} :
    StaysInside (r >>= fun s => pure (f s)) ↔ Ends r fun _ => True := by
  rw [StaysInside, ← ends_true, ends_bind]
  exact ends_congr fun _ => Iff.rfl

/-- A walk over a blob with a whole header that is a row of tokens. -/
theorem parser_fits {V : Visitor σ} {Fits : σ → List Entry → Prop}
    {offDtStruct offDtStrings sizeDtStruct : Nat} (hmagic : Placed b 0 (be32 0xD00DFEED))
    (htotal : Placed b 4 (be32 b.length)) (hsmall : b.length < 2 ^ 32)
    (hh : Header b offDtStruct offDtStrings sizeDtStruct)
    (ht : Tokens b (min (offDtStruct + 4 * (sizeDtStruct / 4)) b.length) offDtStruct es)
    (hF : Follows V b offDtStrings Fits) :
    Ends (parser V b s) (fun _ => True) ↔ Fits s es := by
  rw [parser_ends hmagic htotal hsmall, ← walk_ends hF ht (Nat.le_add_left 1 b.length) (by omega)]
  constructor
  · rintro ⟨o₁, o₂, o₃, hh', hends⟩
    have hsame : ∀ {p x y : Nat}, x < 2 ^ 32 ∧ Placed b p (be32 x) → y < 2 ^ 32 ∧
      Placed b p (be32 y) →
        x = y := fun hx hy =>
      Except.ok.inj ((word_eq hx.2 hx.1).symm.trans (word_eq hy.2 hy.1))
    obtain rfl := hsame hh'.offStruct hh.offStruct
    obtain rfl := hsame hh'.offStrings hh.offStrings
    obtain rfl := hsame hh'.sizeStruct hh.sizeStruct
    exact hends
  · exact fun hends => ⟨_, _, _, hh, hends⟩

/-- The five walks stay inside a blob if and only if it contains what they read. -/
theorem stays_inside_iff (hmagic : Placed b 0 (be32 0xD00DFEED))
    (htotal : Placed b 4 (be32 b.length)) (hsmall : b.length < 2 ^ 32) (ram : Meta)
    (freq idx hart : Nat) (D : Devices) :
    (StaysInside (dtbParserRam b ram) ∧ StaysInside (dtbParserTime b freq) ∧
      StaysInside (dtbParserContext b idx) ∧ StaysInside (dtbParserHart b hart) ∧
      StaysInside (dtbParserMmio b D)) ↔ Contained b := by
  simp only [dtbParserRam, dtbParserTime, dtbParserContext, dtbParserHart, dtbParserMmio,
    staysInside_bind]
  constructor
  · rintro ⟨hram, htime, hcontext, -, hmmio⟩
    obtain ⟨o₁, o₂, o₃, hh, hends⟩ := (parser_ends hmagic htotal hsmall _).mp hram
    obtain ⟨es, ht⟩ := tokens_of_walk hends
    refine ⟨o₁, o₂, o₃, es, hh, ht, ?_, ?_, ?_, ?_⟩
    · exact (parser_fits hmagic htotal hsmall hh ht (follows_ram b o₂)).mp hram
    · exact (parser_fits hmagic htotal hsmall hh ht (follows_time b o₂)).mp htime
    · exact (parser_fits hmagic htotal hsmall hh ht (follows_context b o₂)).mp hcontext
    · exact (parser_fits hmagic htotal hsmall hh ht (follows_mmio hsmall o₂)).mp hmmio
  · rintro ⟨o₁, o₂, o₃, es, hh, ht, hram, htime, hcontext, hmmio⟩
    refine ⟨?_, ?_, ?_, ?_, ?_⟩
    · exact (parser_fits hmagic htotal hsmall hh ht (follows_ram b o₂)).mpr hram
    · exact (parser_fits hmagic htotal hsmall hh ht (follows_time b o₂)).mpr htime
    · exact (parser_fits hmagic htotal hsmall hh ht (follows_context b o₂)).mpr hcontext
    · exact (parser_fits hmagic htotal hsmall hh ht (follows_hart b o₂)).mpr trivial
    · exact (parser_fits hmagic htotal hsmall hh ht (follows_mmio hsmall o₂)).mpr hmmio

/-- A blob that ends behind the token of a node. -/
def truncated : Blob := header 4 0 ++ be32 1

/-- The name of the node is read behind the end. -/
theorem reads_outside : Placed truncated 0 (be32 0xD00DFEED) ∧
    Placed truncated 4 (be32 truncated.length) ∧ truncated.length < 2 ^ 32 ∧
    ¬StaysInside (dtbParserRam truncated ⟨0, 0⟩) := by
  have hout : dtbParserRam truncated ⟨0, 0⟩ = .error .outside := by decide +kernel
  refine ⟨by decide +kernel, by decide +kernel, by decide +kernel, ?_⟩
  rw [hout]
  rintro (⟨a, ha⟩ | hpanic)
  · cases ha
  · cases hpanic

/-- A machine with one hart, its memory, an interrupt controller and a serial port. -/
def wholeBoard : Trees :=
  .node [] []
    (.node (chars "memory@80000000")
      [⟨chars "reg", be32 0 ++ be32 0x80000000 ++ be32 0 ++ be32 0x8000000⟩] .nil
    (.node (chars "cpus") [⟨chars "timebase-frequency", be32 10000000⟩]
      (.node (chars "cpu@0") [⟨chars "reg", be32 0⟩] .nil .nil)
    (.node (chars "plic@c000000")
      [⟨chars "compatible", cstr "riscv,plic0"⟩,
        ⟨chars "reg", be32 0 ++ be32 0xc000000 ++ be32 0 ++ be32 0x600000⟩,
        ⟨chars "interrupts-extended", be32 1 ++ be32 11 ++ be32 1 ++ be32 9⟩] .nil
    (.node (chars "serial@10000000")
      [⟨chars "compatible", cstr "ns16550a"⟩,
        ⟨chars "reg", be32 0 ++ be32 0x10000000 ++ be32 0 ++ be32 0x100⟩] .nil .nil)))) .nil

/-- Its blob contains all that the five walks read. -/
theorem contained_wholeBoard : Contained (blobOf wholeBoard) := by
  have hram : dtbParserRam (blobOf wholeBoard) ⟨0, 0⟩ = .ok ⟨0x80000000, 0x8000000⟩ := by
    decide +kernel
  have htime : dtbParserTime (blobOf wholeBoard) 0 = .ok 10000000 := by decide +kernel
  have hcontext : dtbParserContext (blobOf wholeBoard) 0 = .ok 1 := by decide +kernel
  have hhart : dtbParserHart (blobOf wholeBoard) 0 = .ok 1 := by decide +kernel
  have hmmio : dtbParserMmio (blobOf wholeBoard) ⟨⟨0, 0⟩, ⟨0, 0⟩, ⟨0, 0⟩⟩ =
      .ok ⟨⟨0x10000000, 0x100⟩, ⟨0, 0⟩, ⟨0xc000000, 0x600000⟩⟩ := by decide +kernel
  exact (stays_inside_iff (by decide +kernel) (by decide +kernel) (by decide +kernel) ⟨0, 0⟩ 0 0 0
    ⟨⟨0, 0⟩, ⟨0, 0⟩, ⟨0, 0⟩⟩).mp
    ⟨.inl ⟨_, hram⟩, .inl ⟨_, htime⟩, .inl ⟨_, hcontext⟩, .inl ⟨_, hhart⟩, .inl ⟨_, hmmio⟩⟩

end RexOS.Dtb
