import RexOS.Core.Placed
import RexOS.Core.Serial
import RexOS.Dtb.Model

/-!
# Flattened device trees

A tree of nodes with names, properties and children, and the blobs in which it is written: the
header, the tokens of the structure block with `FDT_NOP` anywhere among them, and the names of the
properties among the strings.
-/

namespace RexOS.Dtb

open Bits Kalloc

structure Property where
  name : List UInt8
  value : List UInt8
  deriving DecidableEq

/-- Nodes with their names and properties. -/
abbrev Trees := Forest (List UInt8) Property

/-- A word as the blob has it, the high byte first. -/
def be32 (n : Nat) : List UInt8 :=
  [UInt8.ofNat (n / 2 ^ 24), UInt8.ofNat (n / 2 ^ 16), UInt8.ofNat (n / 2 ^ 8), UInt8.ofNat n]

/-- Filled up to a multiple of four bytes. -/
def padded (xs : List UInt8) : List UInt8 := xs ++ List.replicate ((4 - xs.length % 4) % 4) 0

/-- A token with what belongs to it. -/
inductive Item where
  | beginNode (name : List UInt8)
  | endNode
  | prop (nameoff : Nat) (value : List UInt8)
  | nop

def Item.encode : Item → List UInt8
  | beginNode name => be32 1 ++ padded (name ++ [0])
  | endNode => be32 2
  | prop nameoff value => be32 3 ++ (be32 value.length ++ be32 nameoff ++ padded value)
  | nop => be32 4

def encode (items : List Item) : List UInt8 := items.flatMap Item.encode

/-- The items stand for these tags, with the names of the properties among the strings. -/
inductive Spells (b : Blob) (strings : Nat) : List Item → List (Tag (List UInt8) Property) → Prop
  | nil : Spells b strings [] []
  | nop {items tags} (rest : Spells b strings items tags) : Spells b strings (.nop :: items) tags
  | endNode {items tags} (rest : Spells b strings items tags) :
      Spells b strings (.endNode :: items) (.closing :: tags)
  | beginNode {items tags name} (clean : 0 ∉ name) (rest : Spells b strings items tags) :
      Spells b strings (.beginNode name :: items) (.opening name :: tags)
  | prop {items tags nameoff p} (clean : 0 ∉ p.name) (small : nameoff < 2 ^ 32)
      (named : Placed b (strings + nameoff) (p.name ++ [0])) (rest : Spells b strings items tags) :
      Spells b strings (.prop nameoff p.value :: items) (.property p :: tags)

/-- The blob holds the trees, with the blocks at these offsets. -/
structure Holds (b : Blob) (t : Trees) (offDtStruct offDtStrings : Nat) (items : List Item) :
    Prop where
  small : b.length < 2 ^ 32
  strings : offDtStrings < 2 ^ 32
  magic : Placed b 0 (be32 0xD00DFEED)
  totalsize : Placed b 4 (be32 b.length)
  offStruct : Placed b 8 (be32 offDtStruct)
  offStrings : Placed b 12 (be32 offDtStrings)
  sizeStruct : Placed b 36 (be32 ((encode items).length + 4))
  block : Placed b offDtStruct (encode items ++ be32 9)
  spells : Spells b offDtStrings items t.flatten

/-- A well-formed blob for the trees. -/
def Flattened (b : Blob) (t : Trees) : Prop :=
  ∃ offDtStruct offDtStrings items, Holds b t offDtStruct offDtStrings items

/-! ## Words -/

variable {b : Blob} {p n k : Nat} {xs ys s name rest : List UInt8} {σ : Type}

/-- A token has four bytes. -/
theorem be32_length (n : Nat) : (be32 n).length = 4 := rfl

/-- The bytes change their order. -/
theorem kswapEndian_eq {b₀ b₁ b₂ b₃ : Nat} (h₀ : b₀ < 256) (h₁ : b₁ < 256) (h₂ : b₂ < 256)
    (h₃ : b₃ < 256) : kswapEndian (b₀ + 256 * (b₁ + 256 * (b₂ + 256 * b₃))) =
      b₃ + 256 * (b₂ + 256 * (b₁ + 256 * b₀)) := by
  generalize hx : b₀ + 256 * (b₁ + 256 * (b₂ + 256 * b₃)) = x
  have hbyte : ∀ k, (x >>> k) &&& 0xFF = x / 2 ^ k % 256 := by
    intro k
    rw [Nat.shiftRight_eq_div_pow]
    exact Nat.and_two_pow_sub_one_eq_mod _ 8
  have hor : ∀ {i a c : Nat}, c < 2 ^ i → c ||| a <<< i = c + 2 ^ i * a := by
    intro i a c hc
    rw [Nat.or_comm, ← Nat.shiftLeft_add_eq_or_of_lt hc, Nat.shiftLeft_eq,
      Nat.add_comm, Nat.mul_comm]
  have he₃ : x / 2 ^ (24 - 8 * 0) % 256 = b₃ := by omega
  have he₂ : x / 2 ^ (24 - 8 * 1) % 256 = b₂ := by omega
  have he₁ : x / 2 ^ (24 - 8 * 2) % 256 = b₁ := by omega
  have he₀ : x / 2 ^ (24 - 8 * 3) % 256 = b₀ := by omega
  have hrange : List.range 4 = [0, 1, 2, 3] := rfl
  rw [kswapEndian, hrange]
  simp only [List.foldl_cons, List.foldl_nil, hbyte, he₀, he₁, he₂, he₃]
  rw [hor (i := 8 * 0) (by omega), hor (i := 8 * 1) (by omega), hor (i := 8 * 2) (by omega),
    hor (i := 8 * 3) (by omega)]
  omega

/-- A word of the blob is read as it was written. -/
theorem word_eq (h : Placed b p (be32 n)) (hn : n < 2 ^ 32) : word b p = .ok n := by
  obtain ⟨rest, hrest⟩ := h.drop_eq
  have hload : load b p = .ok ((UInt8.ofNat (n / 2 ^ 24)).toNat + 256 *
      ((UInt8.ofNat (n / 2 ^ 16)).toNat + 256 * ((UInt8.ofNat (n / 2 ^ 8)).toNat +
        256 * (UInt8.ofNat n).toNat))) := by
    rw [load, hrest]
    rfl
  rw [word, hload]
  show Except.ok (kswapEndian _) = _
  rw [kswapEndian_eq (UInt8.toNat_lt _) (UInt8.toNat_lt _) (UInt8.toNat_lt _) (UInt8.toNat_lt _)]
  simp only [UInt8.toNat_ofNat']
  congr 1
  omega

/-- The number that some bytes are, the high byte first. -/
def beValue (v : List UInt8) : Nat := v.foldl (fun x c => 256 * x + c.toNat) 0

/-- The word at a place. -/
theorem word_of_drop {v : List UInt8} {o : Nat} {b₀ b₁ b₂ b₃ : UInt8}
    (h : v.drop o = b₀ :: b₁ :: b₂ :: b₃ :: rest) : word v o = .ok (beValue [b₀, b₁, b₂, b₃]) := by
  have hload :
      load v o = .ok (b₀.toNat + 256 * (b₁.toNat + 256 * (b₂.toNat + 256 * b₃.toNat))) := by
    rw [load, h]
  rw [word, hload]
  show Except.ok (kswapEndian _) = _
  rw [kswapEndian_eq (UInt8.toNat_lt _) (UInt8.toNat_lt _) (UInt8.toNat_lt _) (UInt8.toNat_lt _)]
  simp only [beValue, List.foldl_cons, List.foldl_nil]
  congr 1
  omega

/-- A value of one word. -/
theorem word_beValue {v : List UInt8} (h : v.length = 4) : word v 0 = .ok (beValue v) := by
  match v, h with
  | [b₀, b₁, b₂, b₃], _ =>
    have hdrop : [b₀, b₁, b₂, b₃].drop 0 = b₀ :: b₁ :: b₂ :: b₃ :: [] := rfl
    exact word_of_drop hdrop

/-- A value of two words. -/
theorem cells_beValue {v : List UInt8} (h : v.length = 8) : cells v 0 = .ok (beValue v) := by
  match v, h with
  | [b₀, b₁, b₂, b₃, b₄, b₅, b₆, b₇], _ =>
    have hhigh : word [b₀, b₁, b₂, b₃, b₄, b₅, b₆, b₇] 0 = .ok (beValue [b₀, b₁, b₂, b₃]) :=
      word_of_drop rfl
    have hlow : word [b₀, b₁, b₂, b₃, b₄, b₅, b₆, b₇] (0 + 4) = .ok (beValue [b₄, b₅, b₆, b₇]) :=
      word_of_drop rfl
    have hlt : beValue [b₄, b₅, b₆, b₇] < 2 ^ 32 := by
      simp only [beValue, List.foldl_cons, List.foldl_nil]
      have h₄ := b₄.toNat_lt
      have h₅ := b₅.toNat_lt
      have h₆ := b₆.toNat_lt
      have h₇ := b₇.toNat_lt
      omega
    rw [cells, hhigh, hlow]
    show Except.ok (_ <<< 32 ||| _) = _
    rw [← Nat.shiftLeft_add_eq_or_of_lt hlt, Nat.shiftLeft_eq]
    simp only [beValue, List.foldl_cons, List.foldl_nil]
    congr 1
    omega

/-! ## Properties -/

/-- What the last one of a list leaves, where each overwrites what was before. -/
theorem getLast?_elim_append {α β : Type} (xs ys : List α) (x : β) (g : α → β) :
    (xs ++ ys).getLast?.elim x g = ys.getLast?.elim (xs.getLast?.elim x g) g := by
  rw [List.getLast?_append]
  cases ys.getLast? with
  | some y => rfl
  | none => rfl

/-- The values of the properties of a name. -/
def valuesNamed (name : String) (ps : List Property) : List (List UInt8) :=
  (ps.filter (·.name = chars name)).map (·.value)

/-- The value of the last property of a name. -/
def lastNamed (name : String) (ps : List Property) : Option (List UInt8) :=
  (valuesNamed name ps).getLast?

/-- The first address and size of a `reg` property. -/
def firstPair (v : List UInt8) : Meta := ⟨beValue (v.take 8), beValue ((v.drop 8).take 8)⟩

/-- Every `reg` property has pairs of an address and a size, with two cells each. -/
def TwoCells (t : Trees) : Prop :=
  ∀ p ∈ t.properties, p.name = chars "reg" → 16 ∣ p.value.length ∧ p.value ≠ []

instance (t : Trees) : Decidable (TwoCells t) := inferInstanceAs (Decidable (∀ p ∈ _, _ → _))

/-- Some properties and then some more. -/
theorem lastNamed_append (name : String) (ps qs : List Property) :
    lastNamed name (ps ++ qs) = (lastNamed name qs).or (lastNamed name ps) := by
  rw [lastNamed, valuesNamed, List.filter_append, List.map_append, List.getLast?_append]
  rfl

/-- One property and then the others. -/
theorem lastNamed_cons (name : String) (p : Property) (ps : List Property) :
    lastNamed name (p :: ps) =
      (lastNamed name ps).or (if p.name = chars name then some p.value else none) := by
  rw [show p :: ps = [p] ++ ps from rfl, lastNamed_append]
  congr 1
  by_cases h : p.name = chars name <;> simp [lastNamed, valuesNamed, h]

/-! ## Padding -/

/-- The code skips a string with its padding. -/
theorem skip_eq (hn : n + 3 < 2 ^ 32) : skip n = n + (4 - n % 4) % 4 := by
  have hmask := andNot_mask (wrap32 (n + 3)) 2
  have hwrap : wrap32 (n + 3) = n + 3 := Nat.mod_eq_of_lt hn
  have h3 : 2 ^ 2 - 1 = 3 := rfl
  rw [h3, hwrap] at hmask
  rw [skip, hwrap, hmask]
  omega

/-- Padding fills up the last word. -/
theorem padded_length (xs : List UInt8) :
    (padded xs).length = xs.length + (4 - xs.length % 4) % 4 := by
  rw [padded, List.length_append, List.length_replicate]

/-! ## Strings -/

/-- A string in the blob has its length. -/
theorem kstrlen_eq (h : 0 ∉ xs) : kstrlen (xs ++ 0 :: rest) = .ok xs.length := by
  induction xs with
  | nil => rfl
  | cons x xs ih =>
    rw [List.mem_cons, not_or] at h
    rw [List.cons_append, kstrlen, if_pos (Ne.symm h.1), ih h.2]
    rfl

/-- The comparison of a prefix, for strings in the blob. -/
theorem kstrHasPrefix_eq (hs : 0 ∉ s) (h : 0 ∉ xs) :
    kstrHasPrefix (s ++ [0]) (xs ++ 0 :: rest) = .ok (decide (s <+: xs)) := by
  induction s generalizing xs with
  | nil => simp [kstrHasPrefix]
  | cons c s ih =>
    rw [List.mem_cons, not_or] at hs
    cases xs with
    | nil => simp [kstrHasPrefix, Ne.symm hs.1]
    | cons x xs =>
      rw [List.mem_cons, not_or] at h
      rw [List.cons_append, List.cons_append, kstrHasPrefix, if_neg (Ne.symm hs.1),
        if_neg (Ne.symm h.1)]
      split
      · rename_i hne
        simp [hne]
      · rename_i he
        rw [ih hs.2 h.2]
        simp [not_not.mp he]

/-- The comparison of strings in the blob. -/
theorem kstrcmp_eq (hs : 0 ∉ s) (h : 0 ∉ xs) :
    kstrcmp (s ++ [0]) (xs ++ 0 :: rest) = .ok (decide (s = xs)) := by
  induction s generalizing xs with
  | nil =>
    cases xs with
    | nil => simp [kstrcmp]
    | cons x xs =>
      rw [List.mem_cons, not_or] at h
      simp [kstrcmp, h.1]
  | cons c s ih =>
    rw [List.mem_cons, not_or] at hs
    cases xs with
    | nil => simp [kstrcmp, Ne.symm hs.1]
    | cons x xs =>
      rw [List.mem_cons, not_or] at h
      rw [List.cons_append, List.cons_append, kstrcmp]
      split
      · rename_i hne
        simp [hne]
      · rename_i he
        rw [if_neg (Ne.symm hs.1), ih hs.2 h.2]
        simp [not_not.mp he]

end RexOS.Dtb
