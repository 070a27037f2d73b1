import RexOS.Dtb.Compatible

/-!
# The devices of the kernel

`dtb_parser_mmio` keeps one device and one pair of address and size for the whole walk. A device is
set at the end of its node, to the last pair that came by: one of the node or of a node below it.
A device below another one takes the place of the outer one.
-/

namespace RexOS.Dtb

open Kalloc

variable {b : Blob} {t f : Trees} {n : Node (List UInt8) Property} {v : List UInt8}
  {ps : List Property} {x : Meta} {a : Nat} {k dd : Int} {D : Devices} {d : Device}

/-- The last device of the tests that matches a list. -/
def lastMatch (v : List UInt8) : Option Device :=
  if Device.plic.Matches v then some .plic
  else if Device.clint.Matches v then some .clint
  else if Device.uart.Matches v then some .uart
  else none

/-- The device that a node is taken for. -/
def deviceOf (ps : List Property) : Option Device :=
  ((valuesNamed "compatible" ps).filterMap lastMatch).getLast?

/-- A node of the forest is taken for a device. -/
def HasDevice (f : Trees) : Prop := ∃ n ∈ f.nodes, deviceOf n.props ≠ none

instance (f : Trees) : Decidable (HasDevice f) := inferInstanceAs (Decidable (∃ n ∈ _, _))

/-- The pair after some properties. -/
def pairAfter (ps : List Property) (x : Meta) : Meta := (lastNamed "reg" ps).elim x firstPair

/-- `active_device`. -/
def Device.code : Device → Nat
  | uart => 1
  | clint => 2
  | plic => 3

def Devices.get (D : Devices) : Device → Meta
  | .uart => D.uart
  | .clint => D.clint
  | .plic => D.plic

def Devices.set (D : Devices) (x : Meta) : Device → Devices
  | .uart => { D with uart := x }
  | .clint => { D with clint := x }
  | .plic => { D with plic := x }

/-- What a walk sets, in order, and the pair after it. -/
def sweep : Trees → Meta → List (Device × Meta) × Meta
  | .nil, x => ([], x)
  | .node _ ps children rest, x =>
    let inner := sweep children (pairAfter ps x)
    let own := if HasDevice children then ([], inner.2)
      else (deviceOf ps).elim ([], inner.2) fun d => ([(d, inner.2)], ⟨0, 0⟩)
    let outer := sweep rest own.2
    (inner.1 ++ (own.1 ++ outer.1), outer.2)

section Sweep

variable {name : List UInt8} {children rest : Trees}

/-- A device below takes the place of the node. -/
theorem sweep_inner (hc : HasDevice children) : sweep (.node name ps children rest) x =
    ((sweep children (pairAfter ps x)).1 ++ (sweep rest (sweep children (pairAfter ps x)).2).1,
      (sweep rest (sweep children (pairAfter ps x)).2).2) := by
  simp only [sweep, if_pos hc]
  rfl

/-- A device with no other one below it. -/
theorem sweep_device (hc : ¬HasDevice children) (hd : deviceOf ps = some d) :
    sweep (.node name ps children rest) x =
      ((sweep children (pairAfter ps x)).1 ++ ((d, (sweep children (pairAfter ps x)).2) ::
        (sweep rest ⟨0, 0⟩).1), (sweep rest ⟨0, 0⟩).2) := by
  simp only [sweep, if_neg hc, hd]
  rfl

/-- A node that is no device. -/
theorem sweep_plain (hc : ¬HasDevice children) (hd : deviceOf ps = none) :
    sweep (.node name ps children rest) x =
      ((sweep children (pairAfter ps x)).1 ++ (sweep rest (sweep children (pairAfter ps x)).2).1,
        (sweep rest (sweep children (pairAfter ps x)).2).2) := by
  simp only [sweep, if_neg hc, hd]
  rfl

end Sweep

/-- The data of the parser, put together. -/
def mmioScan (a : Nat) (x : Meta) (k dd : Int) (D : Devices) : MmioScan :=
  ⟨a, x.baseAddr, x.totalSize, k, dd, D.uart, D.clint, D.plic⟩

def mmioScanner : Scanner (List UInt8) Property Stop MmioScan where
  opening _ s := .ok { s with currDepth := s.currDepth + 1 }
  property p s :=
    if p.name = chars "compatible" ∧ ¬Terminated p.value then .error .outside
    else
      let s := if p.name = chars "compatible" then
          (lastMatch p.value).elim s fun d =>
            { s with activeDevice := d.code, devDepth := s.currDepth }
        else s
      if p.name = chars "reg" then readReg p.value 0 p.value.length s else .ok s
  closing := mmioVisitor.endNode

/-! ## One property -/

/-- The last name in the list that is known decides. -/
theorem matchDevice_eq {str : List UInt8} (s : MmioScan) (hv : Terminated v) (hpl : Placed str 0 v)
    (hsmall : v.length < 2 ^ 32) : matchDevice str v.length s =
      .ok ((lastMatch v).elim s fun d =>
        { s with activeDevice := d.code, devDepth := s.currDepth }) := by
  have htest : ∀ w, 0 ∉ chars w → dtbCompatibleMatch (cstr w) str v.length =
      .ok (decide (Lists v w)) :=
    fun w hw => dtbCompatibleMatch_eq hw hv hpl hsmall
  have htwo : ∀ w₁ w₂, 0 ∉ chars w₁ → 0 ∉ chars w₂ →
      either (dtbCompatibleMatch (cstr w₁) str v.length)
        (dtbCompatibleMatch (cstr w₂) str v.length) =
        .ok (decide (∃ u ∈ [w₁, w₂], Lists v u)) := by
    intro w₁ w₂ h₁ h₂
    rw [either, htest w₁ h₁, htest w₂ h₂, ok_bind]
    by_cases hfirst : Lists v w₁
    · rw [if_pos (decide_eq_true hfirst), decide_eq_true ⟨w₁, by simp, hfirst⟩]
      rfl
    · rw [if_neg (by simpa using hfirst)]
      simp [hfirst]
  have huart : dtbCompatibleMatch (cstr "ns16550a") str v.length =
      .ok (decide (Device.uart.Matches v)) := by
    rw [htest _ (by decide)]
    simp [Device.Matches, Device.models]
  have hclint := htwo "sifive,clint0" "riscv,clint0" (by decide) (by decide)
  have hplic := htwo "riscv,plic0" "sifive,plic-1.0.0" (by decide) (by decide)
  have hset : ∀ (P : Prop) [Decidable P] (device : Nat) (s : MmioScan),
      activate (.ok (decide P)) device s =
        .ok (if P then { s with activeDevice := device, devDepth := s.currDepth } else s) := by
    intro P _ device s
    rw [activate, ok_bind]
    by_cases hP : P
    · rw [if_pos (decide_eq_true hP), if_pos hP]
      rfl
    · rw [if_neg (by simpa using hP), if_neg hP]
      rfl
  rw [matchDevice, huart, hclint, hplic, hset, ok_bind, hset, ok_bind, hset, lastMatch]
  by_cases hp : Device.plic.Matches v <;> by_cases hc : Device.clint.Matches v <;>
    by_cases hu : Device.uart.Matches v
  all_goals
    · simp only [Device.Matches, Device.models] at hp hc hu
      simp only [Device.Matches, Device.models, hp, hc, hu, if_true, if_false]
      rfl

/-- The pair is read within its value. -/
theorem readReg_extends {q len : Nat} (s : MmioScan) (h : Placed b q v) :
    Extends (readReg v 0 len s) (readReg b q len s) := by
  unfold readReg
  split
  · apply (cells_extends h).bind
    intro base
    exact (cells_extends h).bind fun _ => Extends.rfl
  · split
    · apply (word_extends h).bind
      intro base
      exact (word_extends h).bind fun _ => Extends.rfl
    · exact Extends.rfl

/-- The visitor reads as the scanner does. -/
theorem reads_mmio : Reads mmioVisitor mmioScanner where
  opening _ _ _ _ := Extends.rfl
  closing s := rfl
  property b strings ptr nameoff p s hclean hlen hoff hnamed hword hvalue := by
    have hcompatible := kstrcmp_named (w := "compatible") (by decide) hclean hnamed
    have hreg := kstrcmp_named (w := "reg") (by decide) hclean hnamed
    have hlist : Placed (b.drop (ptr + 8)) 0 p.value := hvalue
    simp only [mmioVisitor, mmioScanner, word_eq hword hoff, ok_bind, hcompatible, hreg,
      decide_eq_true_eq]
    by_cases hname : p.name = chars "compatible"
    · by_cases hv : Terminated p.value
      · rw [if_neg fun h => h.2 hv, if_pos hname, if_pos hname, matchDevice_eq s hv hlist hlen,
          ok_bind]
        split
        · exact readReg_extends _ hvalue
        · exact Extends.rfl
      · rw [if_pos ⟨hname, hv⟩]
        exact fun hne => absurd rfl hne
    · rw [if_neg fun h => hname h.1, if_neg hname, if_neg hname, pure_bind]
      split
      · exact readReg_extends _ hvalue
      · exact Extends.rfl

/-! ## The trees -/

/-- The properties of a node are well formed. -/
def Fit (ps : List Property) : Prop := ∀ p ∈ ps,
  (p.name = chars "reg" → 16 ∣ p.value.length ∧ p.value ≠ []) ∧
    (p.name = chars "compatible" → Terminated p.value)

theorem chars_ne : chars "reg" ≠ chars "compatible" := by decide

/-- The properties of a node name its device, and its pair. -/
theorem mmio_props (h : Fit ps) : mmioScanner.props ps (mmioScan a x k dd D) =
    .ok (mmioScan ((deviceOf ps).elim a Device.code) (pairAfter ps x) k
      ((deviceOf ps).elim dd fun _ => k) D) := by
  induction ps generalizing a x dd with
  | nil => rfl
  | cons p ps ih =>
    rw [Fit, List.forall_mem_cons] at h
    have hpair : ∀ y, pairAfter (p :: ps) y =
        pairAfter ps (if p.name = chars "reg" then firstPair p.value else y) := by
      intro y
      rw [pairAfter, pairAfter, lastNamed_cons]
      cases lastNamed "reg" ps with
      | some v => rfl
      | none => split <;> rfl
    have hdevice : deviceOf (p :: ps) =
        (deviceOf ps).or (if p.name = chars "compatible" then lastMatch p.value else none) := by
      by_cases hname : p.name = chars "compatible"
      · rw [if_pos hname]
        cases hm : lastMatch p.value <;> simp [deviceOf, valuesNamed, hname, hm, List.getLast?_cons]
      · simp [deviceOf, valuesNamed, hname]
    have hstep : mmioScanner.property p (mmioScan a x k dd D) = .ok (mmioScan
        ((if p.name = chars "compatible" then lastMatch p.value else none).elim a Device.code)
        (if p.name = chars "reg" then firstPair p.value else x) k
        ((if p.name = chars "compatible" then lastMatch p.value else none).elim dd
          fun _ => k) D) := by
      show (if p.name = chars "compatible" ∧ ¬Terminated p.value then _ else
        if p.name = chars "reg" then _ else _) = _
      by_cases hname : p.name = chars "compatible"
      · have hreg : p.name ≠ chars "reg" := fun h => chars_ne (h.symm.trans hname)
        rw [if_neg fun hbad => hbad.2 (h.1.2 hname), if_neg hreg, if_neg hreg, if_pos hname,
          if_pos hname]
        cases lastMatch p.value <;> rfl
      · rw [if_neg fun hbad => hname hbad.1, if_neg hname, if_neg hname]
        by_cases hreg : p.name = chars "reg"
        · obtain ⟨hdvd, hne⟩ := h.1.1 hreg
          have hpos := List.length_pos_of_ne_nil hne
          rw [if_pos hreg, if_pos hreg, readReg, if_pos (by omega), cells_eq (o := 0) (by omega),
            cells_eq (o := 0 + 8) (by omega)]
          rfl
        · rw [if_neg hreg, if_neg hreg]
          rfl
    rw [Scanner.props_cons, hstep, ok_bind, ih h.2, hpair, hdevice]
    cases deviceOf ps <;> rfl

/-- At the end of a node. -/
theorem mmio_closing (h : a = 0 ∨ dd < k) : mmioScanner.closing (mmioScan a x k dd D) =
    mmioScan a x (k - 1) dd D := by
  have hidle : ¬(a > 0 ∧ k = dd) := by omega
  show (mmioVisitor.endNode (mmioScan a x k dd D)) = _
  unfold mmioVisitor mmioScan
  simp only [hidle, if_false]

/-- At the end of a device. -/
theorem mmio_closing_device : mmioScanner.closing (mmioScan d.code x k k D) =
    mmioScan 0 ⟨0, 0⟩ (k - 1) 0 (D.set x d) := by
  cases d <;> simp [mmioScanner, mmioVisitor, mmioScan, Device.code, Devices.set]

/-- Well-formed properties in all nodes. -/
def AllFit (f : Trees) : Prop := ∀ n ∈ f.nodes, Fit n.props

instance (f : Trees) : Decidable (AllFit f) :=
  inferInstanceAs (Decidable (∀ n ∈ f.nodes, ∀ p ∈ n.props, (_ → _) ∧ (_ → _)))

/-- A device is in the node, below it or behind it. -/
theorem hasDevice_node {name : List UInt8} {children rest : Trees} :
    HasDevice (.node name ps children rest) ↔
      deviceOf ps ≠ none ∨ HasDevice children ∨ HasDevice rest := by
  simp only [HasDevice, Forest.nodes_node, List.mem_cons, List.mem_append, or_and_right, exists_or,
    exists_eq_left]

/-- The walk sets what the sweep says, and leaves no device active if it has met one. -/
theorem mmio_forest (h : AllFit f) (ha : a = 0 ∨ dd ≤ k) :
    mmioScanner.forest f (mmioScan a x k dd D) = .ok (mmioScan (if HasDevice f then 0 else a)
      (sweep f x).2 k (if HasDevice f then 0 else dd)
      ((sweep f x).1.foldl (fun D c => D.set c.2 c.1) D)) := by
  induction f generalizing a x k dd D with
  | nil =>
    have hnone : ¬HasDevice .nil := fun ⟨_, hn, _⟩ => absurd hn List.not_mem_nil
    rw [if_neg hnone, if_neg hnone]
    rfl
  | node name ps children rest ihc ihr =>
    rw [AllFit, Forest.nodes_node, List.forall_mem_cons, List.forall_mem_append] at h
    obtain ⟨hps, hc, hr⟩ := h
    have hopen : mmioScanner.opening name (mmioScan a x k dd D) = .ok (mmioScan a x (k + 1) dd D) :=
      rfl
    have hactive : (deviceOf ps).elim a Device.code = 0 ∨
        ((deviceOf ps).elim dd fun _ => k + 1) ≤ k + 1 := by
      cases deviceOf ps with
      | none => exact ha.imp id fun hle => by simp only [Option.elim_none]; omega
      | some d => exact Or.inr (Int.le_refl (k + 1))
    have hback : k + 1 - 1 = k := Int.add_sub_cancel k 1
    rw [Scanner.forest, hopen, ok_bind, mmio_props hps, ok_bind, ihc hc hactive, ok_bind]
    by_cases hinner : HasDevice children
    · -- the device below has reset what was active
      have hall : HasDevice (.node name ps children rest) :=
        hasDevice_node.mpr (Or.inr (Or.inl hinner))
      rw [if_pos hinner, if_pos hinner, mmio_closing (Or.inl rfl), hback, ihr hr (Or.inl rfl),
        sweep_inner hinner, List.foldl_append, if_pos hall, if_pos hall, ite_self, ite_self]
    · rw [if_neg hinner, if_neg hinner]
      cases hd : deviceOf ps with
      | some d =>
        have hall : HasDevice (.node name ps children rest) :=
          hasDevice_node.mpr (Or.inl (by rw [hd]; simp))
        rw [Option.elim_some, Option.elim_some, mmio_closing_device, hback, ihr hr (Or.inl rfl),
          sweep_device hinner hd, List.foldl_append, List.foldl_cons, if_pos hall, if_pos hall,
          ite_self, ite_self]
      | none =>
        have hall : HasDevice (.node name ps children rest) ↔ HasDevice rest := by
          rw [hasDevice_node, hd]
          simp [hinner]
        rw [Option.elim_none, Option.elim_none, mmio_closing (by omega), hback, ihr hr ha,
          sweep_plain hinner hd, List.foldl_append]
        simp only [hall]

/-! ## One device -/

/-- What is set last stays. -/
theorem get_foldl (cs : List (Device × Meta)) (D : Devices) (d : Device) :
    (cs.foldl (fun D c => D.set c.2 c.1) D).get d =
      (cs.filter (·.1 = d)).getLast?.elim (D.get d) Prod.snd := by
  induction cs generalizing D with
  | nil => rfl
  | cons c cs ih =>
    have hset : (D.set c.2 c.1).get d = if c.1 = d then c.2 else D.get d := by
      obtain ⟨d', y⟩ := c
      cases d' <;> cases d <;> rfl
    rw [List.foldl_cons, ih, hset, List.filter_cons]
    by_cases hd : c.1 = d
    · rw [if_pos hd, if_pos (decide_eq_true hd), show c :: cs.filter (·.1 = d) =
        [c] ++ cs.filter (·.1 = d) from rfl, getLast?_elim_append]
      rfl
    · rw [if_neg hd, if_neg (by simpa using hd)]

/-- Some properties and then some more. -/
theorem pairAfter_append (ps qs : List Property) (x : Meta) :
    pairAfter (ps ++ qs) x = pairAfter qs (pairAfter ps x) := by
  rw [pairAfter, lastNamed_append, pairAfter, pairAfter]
  cases lastNamed "reg" qs <;> rfl

/-- Without a device, only the pair moves on. -/
theorem sweep_idle (h : ¬HasDevice f) : sweep f x = ([], pairAfter f.properties x) := by
  induction f generalizing x with
  | nil => rfl
  | node name ps children rest ihc ihr =>
    rw [hasDevice_node, not_or, not_or, not_not] at h
    obtain ⟨hd, hc, hr⟩ := h
    rw [sweep_plain hc hd, ihc hc, ihr hr, Forest.properties_node, pairAfter_append,
      pairAfter_append]
    rfl

/-- A device that no node is taken for is not set. -/
theorem sweep_absent (h : ∀ n ∈ f.nodes, deviceOf n.props ≠ some d) :
    (sweep f x).1.filter (·.1 = d) = [] := by
  induction f generalizing x with
  | nil => rfl
  | node name ps children rest ihc ihr =>
    rw [Forest.nodes_node, List.forall_mem_cons, List.forall_mem_append] at h
    obtain ⟨hps, hc, hr⟩ := h
    by_cases hinner : HasDevice children
    · rw [sweep_inner hinner, List.filter_append, ihc hc, ihr hr]
      rfl
    · cases hd : deviceOf ps with
      | none =>
        rw [sweep_plain hinner hd, List.filter_append, ihc hc, ihr hr]
        rfl
      | some e =>
        have hne : e ≠ d := fun he => hps (he ▸ hd)
        rw [sweep_device hinner hd, List.filter_append, ihc hc, List.filter_cons,
          if_neg (by simpa using hne), ihr hr]
        rfl

/-- A device that one node is taken for is set at the end of it, unless another one is below. -/
theorem sweep_single (h : f.nodes.filter (deviceOf ·.props = some d) = [n])
    (hreg : valuesNamed "reg" n.props = [v]) : (sweep f x).1.filter (·.1 = d) =
      if HasDevice n.children then []
      else [(d, pairAfter n.children.properties (firstPair v))] := by
  have hnone : ∀ {f : Trees}, f.nodes.filter (deviceOf ·.props = some d) = [] →
      ∀ n ∈ f.nodes, deviceOf n.props ≠ some d := by
    intro f hf m hm he
    exact List.filter_eq_nil_iff.mp hf m hm (decide_eq_true he)
  induction f generalizing x with
  | nil => exact absurd h (by simp)
  | node name ps children rest ihc ihr =>
    rw [Forest.nodes_node, List.filter_cons, List.filter_append] at h
    by_cases hown : deviceOf ps = some d
    · rw [if_pos (decide_eq_true hown), List.cons.injEq, List.append_eq_nil_iff] at h
      obtain ⟨rfl, hc, hr⟩ := h
      by_cases hinner : HasDevice children
      · rw [if_pos hinner, sweep_inner hinner, List.filter_append, sweep_absent (hnone hc),
          sweep_absent (hnone hr)]
        rfl
      · have hpair : pairAfter ps x = firstPair v := by
          rw [pairAfter, lastNamed, hreg]
          rfl
        rw [if_neg hinner, sweep_device hinner hown, List.filter_append, sweep_absent (hnone hc),
          List.filter_cons, if_pos (decide_eq_true rfl), sweep_absent (hnone hr), sweep_idle hinner,
          hpair]
        rfl
    · rw [if_neg (by simpa using hown)] at h
      have hsplit : (sweep (.node name ps children rest) x).1.filter (·.1 = d) =
          (sweep children (pairAfter ps x)).1.filter (·.1 = d) ++
            (sweep rest (if HasDevice children then (sweep children (pairAfter ps x)).2
              else (deviceOf ps).elim (sweep children (pairAfter ps x)).2 fun _ => ⟨0, 0⟩)).1.filter
                (·.1 = d) := by
        by_cases hinner : HasDevice children
        · rw [if_pos hinner, sweep_inner hinner, List.filter_append]
        · rw [if_neg hinner]
          cases hd : deviceOf ps with
          | none =>
            rw [sweep_plain hinner hd, List.filter_append]
            rfl
          | some e =>
            have hne : e ≠ d := fun he => hown (he ▸ hd)
            rw [sweep_device hinner hd, List.filter_append, List.filter_cons,
              if_neg (by simpa using hne)]
            rfl
      rw [hsplit]
      rcases List.append_eq_singleton_iff.mp h with ⟨hc, hr⟩ | ⟨hc, hr⟩
      · rw [sweep_absent (hnone hc), ihr hr]
        rfl
      · rw [ihc hc, sweep_absent (hnone hr), List.append_nil]

/-- The walk leaves the device what its node says: the node is taken for it and has no device below,
and the last pair of the node is like its own; or it says what the kernel had before. -/
def Undisturbed (D : Devices) (d : Device) (n : Node (List UInt8) Property) (v : List UInt8) :
    Prop :=
  if deviceOf n.props = some d ∧ ¬HasDevice n.children then
    pairAfter n.children.properties (firstPair v) = firstPair v
  else D.get d = firstPair v

instance (D : Devices) (d : Device) (n : Node (List UInt8) Property) (v : List UInt8) :
    Decidable (Undisturbed D d n v) :=
  inferInstanceAs (Decidable (if deviceOf n.props = some d ∧ ¬HasDevice n.children then _ else _))

/-- A node that is taken for a device matches it. -/
theorem of_deviceOf (h : deviceOf n.props = some d) : d.Of n := by
  obtain ⟨v, hv, hm⟩ := List.mem_filterMap.mp (List.mem_of_getLast? h)
  refine ⟨v, hv, ?_⟩
  unfold lastMatch at hm
  split_ifs at hm with hp hc hu <;> cases hm
  · exact hp
  · exact hc
  · exact hu

/-- Each device gets the first pair of its node if and only if nothing disturbs it. -/
theorem mmio_iff {node : Device → Node (List UInt8) Property} {reg : Device → List UInt8}
    (hb : Flattened b t) (hfit : AllFit t) (hone : ∀ d, t.nodes.filter (Device.Of d ·) = [node d])
    (hreg : ∀ d, valuesNamed "reg" (node d).props = [reg d]) :
    (∃ D', dtbParserMmio b D = .ok D' ∧ ∀ d, D'.get d = firstPair (reg d)) ↔
      ∀ d, Undisturbed D d (node d) (reg d) := by
  have hscan : mmioScanner.forest t (mmioScan 0 ⟨0, 0⟩ 0 0 D) =
      .ok (mmioScan (if HasDevice t then 0 else 0) (sweep t ⟨0, 0⟩).2 0
        (if HasDevice t then 0 else 0)
        ((sweep t ⟨0, 0⟩).1.foldl (fun D c => D.set c.2 c.1) D)) := mmio_forest hfit (Or.inl rfl)
  have hparse := parser_extends reads_mmio hb (s := mmioScan 0 ⟨0, 0⟩ 0 0 D) (by rw [hscan]; simp)
  have hresult : dtbParserMmio b D =
      .ok ((sweep t ⟨0, 0⟩).1.foldl (fun D c => D.set c.2 c.1) D) := by
    have hstart : (⟨0, 0, 0, 0, 0, D.uart, D.clint, D.plic⟩ : MmioScan) = mmioScan 0 ⟨0, 0⟩ 0 0 D :=
      rfl
    rw [dtbParserMmio, hstart, hparse, hscan]
    rfl
  have hget : ∀ d, ((sweep t ⟨0, 0⟩).1.foldl (fun D c => D.set c.2 c.1) D).get d =
      firstPair (reg d) ↔ Undisturbed D d (node d) (reg d) := by
    intro d
    have htaken : t.nodes.filter (deviceOf ·.props = some d) =
        if deviceOf (node d).props = some d then [node d] else [] := by
      have hsub : t.nodes.filter (deviceOf ·.props = some d) =
          (t.nodes.filter (Device.Of d ·)).filter (deviceOf ·.props = some d) := by
        rw [List.filter_filter]
        apply List.filter_congr
        intro m _
        by_cases hm : deviceOf m.props = some d
        · simp [hm, of_deviceOf hm]
        · simp [hm]
      rw [hsub, hone d, List.filter_cons, List.filter_nil]
      simp only [decide_eq_true_eq]
    rw [get_foldl, Undisturbed]
    by_cases hd : deviceOf (node d).props = some d
    · rw [if_pos hd] at htaken
      rw [sweep_single htaken (hreg d)]
      by_cases hinner : HasDevice (node d).children
      · rw [if_pos hinner, if_neg fun h => h.2 hinner]
        exact Iff.rfl
      · rw [if_neg hinner, if_pos ⟨hd, hinner⟩]
        exact Iff.rfl
    · rw [if_neg hd] at htaken
      have habsent : ∀ m ∈ t.nodes, deviceOf m.props ≠ some d := fun m hm he =>
        List.filter_eq_nil_iff.mp htaken m hm (decide_eq_true he)
      rw [sweep_absent habsent, if_neg fun h => hd h.1]
      exact Iff.rfl
  rw [hresult]
  constructor
  · rintro ⟨D', hD', hall⟩ d
    obtain rfl := Except.ok.inj hD'
    exact (hget d).mp (hall d)
  · intro h
    exact ⟨_, rfl, fun d => (hget d).mpr (h d)⟩

/-- A `reg` property with an address and a size. -/
def regOf (addr size : Nat) : Property := ⟨chars "reg", be32 0 ++ be32 addr ++ be32 0 ++ be32 size⟩

/-- The nodes of the devices; below the serial port is `port`. -/
def board (port : Trees) : Device → Node (List UInt8) Property
  | .uart => ⟨chars "serial@10000000",
    [⟨chars "compatible", chars "ns16550a" ++ [0]⟩, regOf 0x10000000 0x100], port⟩
  | .clint => ⟨chars "clint@2000000",
    [regOf 0x2000000 0x10000, ⟨chars "compatible", chars "riscv,clint0" ++ [0]⟩], .nil⟩
  | .plic => ⟨chars "plic@c000000",
    [regOf 0xC000000 0x600000, ⟨chars "compatible", chars "riscv,plic0" ++ [0]⟩], .nil⟩

/-- The tree of the board. -/
def boardTree (port : Trees) : Trees :=
  .node [] []
    (.node (board port .uart).name (board port .uart).props port
      (.node (board port .clint).name (board port .clint).props .nil
        (.node (board port .plic).name (board port .plic).props .nil .nil))) .nil

/-- The `reg` properties of the board. -/
def boardReg : Device → List UInt8
  | .uart => (regOf 0x10000000 0x100).value
  | .clint => (regOf 0x2000000 0x10000).value
  | .plic => (regOf 0xC000000 0x600000).value

/-- Something at address 1 of the serial port. -/
def attached : Trees := .node (chars "modem@1") [regOf 1 0] .nil .nil

/-- The serial port gets the address of what is attached to it. -/
theorem mmio_attached : Flattened (blobOf (boardTree attached)) (boardTree attached) ∧
    AllFit (boardTree attached) ∧
    (∀ d, (boardTree attached).nodes.filter (Device.Of d ·) = [board attached d]) ∧
    (∀ d, valuesNamed "reg" (board attached d).props = [boardReg d]) ∧
    firstPair (boardReg .uart) = ⟨0x10000000, 0x100⟩ ∧
    dtbParserMmio (blobOf (boardTree attached)) ⟨⟨0, 0⟩, ⟨0, 0⟩, ⟨0, 0⟩⟩ =
      .ok ⟨⟨1, 0⟩, ⟨0x2000000, 0x10000⟩, ⟨0xC000000, 0x600000⟩⟩ := by
  have hb : Flattened (blobOf (boardTree attached)) (boardTree attached) :=
    flattened_blobOf (by decide +kernel) (by decide +kernel)
  exact ⟨hb, by decide +kernel, fun d => by cases d <;> rfl, fun d => by cases d <;> rfl,
    by decide +kernel, by decide +kernel⟩

/-- The three devices of the board. -/
theorem mmio_iff_board : ∃ D', dtbParserMmio (blobOf (boardTree .nil)) ⟨⟨0, 0⟩, ⟨0, 0⟩, ⟨0, 0⟩⟩ =
    .ok D' ∧ ∀ d, D'.get d = firstPair (boardReg d) := by
  have hb : Flattened (blobOf (boardTree .nil)) (boardTree .nil) :=
    flattened_blobOf (by decide +kernel) (by decide +kernel)
  have hone : ∀ d, (boardTree .nil).nodes.filter (Device.Of d ·) = [board .nil d] := fun d => by
    cases d <;> rfl
  have hreg : ∀ d, valuesNamed "reg" (board .nil d).props = [boardReg d] :=
    fun d => by cases d <;> rfl
  exact (mmio_iff hb (by decide +kernel) hone hreg).mpr fun d => by cases d <;> decide +kernel

end RexOS.Dtb
