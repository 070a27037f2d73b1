import RexOS.Dtb.Walk
import RexOS.Dtb.Writer

/-!
# Lists of compatible models

A `compatible` property is a list of strings, each with its 0. `dtb_compatible_match` finds a string
that begins with the one it looks for.
-/

namespace RexOS.Dtb

variable {str v c : List UInt8} {ss : List (List UInt8)} {itr strLen n : Nat} {w : String}

/-- The strings of a list, and what is behind the last 0. -/
def stringsOf : List UInt8 → List (List UInt8)
  | [] => []
  | c :: cs =>
    if c = 0 then [] :: stringsOf cs
    else match stringsOf cs with
      | [] => [[c]]
      | s :: ss => (c :: s) :: ss

/-- The strings as they lie in memory. -/
def joined (ss : List (List UInt8)) : List UInt8 := ss.flatMap (· ++ [0])

/-- Every string of the list ends. -/
def Terminated (v : List UInt8) : Prop := joined (stringsOf v) = v

instance (v : List UInt8) : Decidable (Terminated v) := inferInstanceAs (Decidable (_ = _))

/-- A string of the list begins with `w`. -/
def Lists (v : List UInt8) (w : String) : Prop := ∃ s ∈ stringsOf v, chars w <+: s

instance (v : List UInt8) (w : String) : Decidable (Lists v w) :=
  inferInstanceAs (Decidable (∃ s ∈ _, _))

/-- The strings of a value have no zero. -/
theorem clean_of_mem_stringsOf (v : List UInt8) : ∀ s ∈ stringsOf v, 0 ∉ s := by
  induction v with
  | nil => simp [stringsOf]
  | cons c cs ih =>
    rw [stringsOf]
    split
    · simpa using ih
    · rename_i hc
      cases hs : stringsOf cs with
      | nil => simpa using Ne.symm hc
      | cons s ss =>
        rw [hs, List.forall_mem_cons] at ih
        simpa [Ne.symm hc] using ih

/-- Each string ends with a zero. -/
theorem joined_cons (s : List UInt8) (ss : List (List UInt8)) :
    joined (s :: ss) = s ++ [0] ++ joined ss := List.flatMap_cons

/-- The loop from a string of the list on. -/
theorem match_joined (hw : 0 ∉ chars w) (hclean : ∀ s ∈ ss, 0 ∉ s)
    (hpl : Placed str itr (joined ss))
    (hlen : itr + (joined ss).length = strLen) (hsmall : strLen < 2 ^ 32) (hn : ss.length < n) :
    dtbCompatibleMatchFrom (cstr w) str strLen n itr = .ok (ss.any (chars w <+: ·)) := by
  induction ss generalizing itr n with
  | nil =>
    obtain ⟨n, rfl⟩ := Nat.exists_eq_add_of_lt hn
    have hitr : ¬itr < strLen := by
      simp only [joined, List.flatMap_nil, List.length_nil] at hlen
      omega
    rw [dtbCompatibleMatchFrom, if_neg hitr]
    rfl
  | cons s ss ih =>
    obtain ⟨n, rfl⟩ : ∃ m, n = m + 1 := ⟨n - 1, by rw [List.length_cons] at hn; omega⟩
    rw [List.forall_mem_cons] at hclean
    rw [joined_cons, Placed.append_iff] at hpl
    obtain ⟨hstring, hbehind⟩ := hpl
    obtain ⟨rest, hrest⟩ := hstring.drop_eq
    rw [List.append_assoc, List.singleton_append] at hrest
    rw [joined_cons, List.length_append, List.length_append, List.length_singleton] at hlen
    rw [List.length_append, List.length_singleton] at hbehind
    have hprefix : kstrHasPrefix (cstr w) (str.drop itr) = .ok (decide (chars w <+: s)) := by
      rw [hrest]
      exact kstrHasPrefix_eq hw hclean.1
    rw [dtbCompatibleMatchFrom, if_pos (by omega), hprefix, ok_bind, List.any_cons]
    by_cases hs : chars w <+: s
    · simp only [hs, decide_true, if_true, Bool.true_or]
      rfl
    · have hnext : wrap32 (itr + s.length + 1) = itr + (s.length + 1) :=
        Nat.mod_eq_of_lt (by omega)
      simp only [hs, decide_false, Bool.false_eq_true, if_false, Bool.false_or]
      rw [hrest, kstrlen_eq hclean.1, ok_bind, hnext]
      exact ih hclean.2 hbehind (by omega) (by rw [List.length_cons] at hn; omega)

/-- So there are no more strings than bytes. -/
theorem length_le_joined (ss : List (List UInt8)) : ss.length ≤ (joined ss).length := by
  induction ss with
  | nil => exact Nat.le_refl 0
  | cons s ss ih =>
    rw [joined_cons, List.length_append, List.length_append, List.length_singleton,
      List.length_cons]
    omega

/-- The test of a terminated list, whatever comes behind it. -/
theorem dtbCompatibleMatch_eq (hw : 0 ∉ chars w) (hv : Terminated v) (hpl : Placed str 0 v)
    (hsmall : v.length < 2 ^ 32) :
    dtbCompatibleMatch (cstr w) str v.length = .ok (decide (Lists v w)) := by
  have hlen : v.length ≤ str.length := by
    have hle := List.IsPrefix.length_le hpl
    rwa [List.drop_zero] at hle
  have hcount := length_le_joined (stringsOf v)
  rw [hv] at hcount
  have hj : joined (stringsOf v) = v := hv
  rw [dtbCompatibleMatch, match_joined hw (clean_of_mem_stringsOf v) (hj.symm ▸ hpl)
    (by rw [hj, Nat.zero_add]) hsmall (by omega)]
  congr 1
  rw [Bool.eq_iff_iff, List.any_eq_true, decide_eq_true_eq]
  simp only [Lists, decide_eq_true_eq]

/-! ## Devices -/

/-- The devices that the kernel looks for. -/
inductive Device where
  | uart
  | clint
  | plic
  deriving DecidableEq

/-- The models that the kernel knows. -/
def Device.models : Device → List String
  | uart => ["ns16550a"]
  | clint => ["sifive,clint0", "riscv,clint0"]
  | plic => ["riscv,plic0", "sifive,plic-1.0.0"]

/-- The list has a matching string for the device. -/
def Device.Matches (d : Device) (v : List UInt8) : Prop := ∃ w ∈ d.models, Lists v w

instance (d : Device) (v : List UInt8) : Decidable (d.Matches v) :=
  inferInstanceAs (Decidable (∃ w ∈ _, _))

/-- A `compatible` list of the node matches the device. -/
def Device.Of (d : Device) (n : Node (List UInt8) Property) : Prop :=
  ∃ v ∈ valuesNamed "compatible" n.props, d.Matches v

instance (d : Device) (n : Node (List UInt8) Property) : Decidable (d.Of n) :=
  inferInstanceAs (Decidable (∃ v ∈ _, _))

end RexOS.Dtb
