import RexOS.Dtb.Tree

/-!
# A parser on a well-formed blob

Every parser does at a token what depends on the name, or on the property, and on its data. On a
well-formed blob it is therefore a scan of the trees, as long as no value is too short for what the
parser reads of it.
-/

namespace RexOS.Dtb

open Bits

variable {b : Blob} {t : Trees} {p q n o strings endTk endDtb : Nat} {v name rest : List UInt8}
  {σ α β : Type} {items : List Item} {tags : List (Tag (List UInt8) Property)} {s : σ}

theorem ok_bind (a : α) (f : α → Read β) : ((.ok a : Read α) >>= f) = f a := rfl

/-! ## Reading with more behind -/

/-- What stays inside its bytes reads the same where more bytes follow. -/
def Extends (x y : Read α) : Prop := x ≠ .error .outside → y = x

/-- The same read. -/
theorem Extends.rfl {x : Read α} : Extends x x := fun _ => Eq.refl x

theorem Extends.of_eq {x y : Read α} (h : y = x) : Extends x y := fun _ => h

/-- One read after the other. -/
theorem Extends.bind {x y : Read α} {f g : α → Read β} (h : Extends x y)
    (hf : ∀ a, Extends (f a) (g a)) : Extends (x >>= f) (y >>= g) := by
  intro hne
  cases hx : x with
  | error e =>
    rw [hx] at hne h
    have hy := h fun he => hne (by rw [he]; rfl)
    rw [hy]
    rfl
  | ok a =>
    rw [hx] at hne h
    have hy := h (by simp)
    rw [hy]
    exact hf a hne

/-- A load within a value is one in the blob. -/
theorem load_extends (h : Placed b q v) : Extends (load v o) (load b (q + o)) := by
  obtain ⟨rest, hrest⟩ := h.drop_eq
  intro hne
  rw [load] at hne
  have hdrop : b.drop (q + o) = (v ++ rest).drop o := by rw [← hrest, List.drop_drop]
  rw [load, load, hdrop]
  split at hne
  · rename_i b₀ b₁ b₂ b₃ tail hv
    have hlen : o ≤ v.length := by
      by_contra hlt
      rw [List.drop_eq_nil_of_le (Nat.le_of_not_le hlt)] at hv
      simp at hv
    rw [List.drop_append_of_le_length hlen, hv]
    rfl
  · exact absurd (Eq.refl _) hne

/-- So is a word. -/
theorem word_extends (h : Placed b q v) : Extends (word v o) (word b (q + o)) :=
  (load_extends h).bind fun _ => .rfl

/-- So are two cells. -/
theorem cells_extends (h : Placed b q v) : Extends (cells v o) (cells b (q + o)) := by
  apply (word_extends h).bind
  intro high
  rw [Nat.add_assoc]
  exact (word_extends h).bind fun _ => .rfl

/-- Two words somewhere in a value. -/
theorem cells_eq (h : o + 8 ≤ v.length) : cells v o = .ok (beValue ((v.drop o).take 8)) := by
  have hplaced : Placed v o ((v.drop o).take 8) := List.take_prefix 8 _
  have hlen : ((v.drop o).take 8).length = 8 := by
    rw [List.length_take, List.length_drop]
    omega
  have hcells := cells_extends (o := 0) hplaced
  rw [cells_beValue hlen] at hcells
  exact hcells (by simp)

/-! ## The walk -/

/-- The parser does at the tokens what the scanner does at the tags. -/
structure Reads (V : Visitor σ) (R : Scanner (List UInt8) Property Stop σ) : Prop where
  opening : ∀ name rest s, 0 ∉ name → Extends (R.opening name s) (V.beginNode (name ++ 0 :: rest) s)
  closing : ∀ s, V.endNode s = R.closing s
  property : ∀ b strings ptr nameoff p s, 0 ∉ p.name → p.value.length < 2 ^ 32 →
    nameoff < 2 ^ 32 → Placed b (strings + nameoff) (p.name ++ [0]) →
    Placed b (ptr + 4) (be32 nameoff) → Placed b (ptr + 8) p.value →
    Extends (R.property p s) (V.prop b strings ptr p.value.length s)

/-- A test of the name of a property. -/
theorem kstrcmp_named {w : String} {xs : List UInt8} (hw : 0 ∉ chars w) (hclean : 0 ∉ xs)
    (hnamed : Placed b p (xs ++ [0])) :
    kstrcmp (cstr w) (b.drop p) = .ok (decide (xs = chars w)) := by
  obtain ⟨rest, hrest⟩ := hnamed.drop_eq
  rw [hrest, List.append_assoc, decide_eq_decide.mpr eq_comm]
  exact kstrcmp_eq hw hclean

/-- One item and then the others. -/
theorem encode_cons (i : Item) (items : List Item) : encode (i :: items) = i.encode ++
    encode items := by
  rw [encode, List.flatMap_cons, encode]

/-- A value in the blob is short. -/
theorem length_lt_of_padded (hb : b.length < 2 ^ 32) (h : Placed b (p + 4) (padded v))
    (hv : v ≠ []) :
    v.length + 3 < 2 ^ 32 := by
  have hbound := h.length_le (by simp [padded, hv])
  rw [padded_length] at hbound
  omega

/-- A node of the structure block. -/
theorem placed_beginNode (hb : b.length < 2 ^ 32) (h : Placed b p (Item.beginNode name).encode) :
    Placed b p (be32 1) ∧ (∃ rest, b.drop (p + 4) = name ++ 0 :: rest) ∧
      (Item.beginNode name).encode.length = 4 + skip (name.length + 1) := by
  rw [Item.encode, Placed.append_iff, be32_length] at h
  obtain ⟨htoken, hname⟩ := h
  have hlt := length_lt_of_padded hb hname (by simp)
  obtain ⟨tail, htail⟩ := hname.drop_eq
  rw [List.length_append, List.length_singleton] at hlt
  refine ⟨htoken, ⟨List.replicate ((4 - (name ++ [0]).length % 4) % 4) 0 ++ tail, ?_⟩, ?_⟩
  · rw [htail, padded, List.append_assoc, List.append_assoc, List.singleton_append]
  · rw [Item.encode, List.length_append, be32_length, padded_length, skip_eq (by omega),
      List.length_append, List.length_singleton]

/-- A property of the structure block. -/
theorem placed_prop {nameoff : Nat} (hb : b.length < 2 ^ 32)
    (h : Placed b p (Item.prop nameoff v).encode) :
    Placed b p (be32 3) ∧ Placed b (p + 4) (be32 v.length) ∧ Placed b (p + 8) (be32 nameoff) ∧
      Placed b (p + 12) v ∧ v.length < 2 ^ 32 ∧
      (Item.prop nameoff v).encode.length = 12 + skip v.length := by
  rw [Item.encode, Placed.append_iff, be32_length, List.append_assoc, Placed.append_iff,
    be32_length, Placed.append_iff, be32_length] at h
  obtain ⟨htoken, hlength, hoff, hvalue⟩ := h
  have hlt : v.length + 3 < 2 ^ 32 := by
    cases v with
    | nil => exact (by decide : 3 < 2 ^ 32)
    | cons x xs => exact length_lt_of_padded hb (p := p + 8) hvalue (by simp)
  rw [padded, Placed.append_iff] at hvalue
  refine ⟨htoken, hlength, hoff, hvalue.1, by omega, ?_⟩
  simp only [Item.encode, List.length_append, be32_length, padded_length, skip_eq hlt]
  omega

/-- One turn of the loop. -/
theorem walk_succ {V : Visitor σ} {token : Nat} (hp : p + 4 ≤ endTk) (hd : endTk ≤ endDtb)
    (ht : Placed b p (be32 token)) (hsmall : token < 2 ^ 32) :
    walk V b strings endTk endDtb (n + 1) p s =
      if token = 0x00000001 then do
        let s ← V.beginNode (b.drop (p + 4)) s
        let len ← kstrlen (b.drop (p + 4))
        walk V b strings endTk endDtb n (p + 4 + skip (len + 1)) s
      else if token = 0x00000002 then walk V b strings endTk endDtb n (p + 4) (V.endNode s)
      else if token = 0x00000003 then do
        let propLen ← word b (p + 4)
        let s ← V.prop b strings (p + 4) propLen s
        walk V b strings endTk endDtb n (p + 4 + 8 + skip propLen) s
      else walk V b strings endTk endDtb n (p + 4) s := by
  rw [walk, if_pos ⟨by omega, by omega⟩, word_eq ht hsmall]
  rfl

/-- The structure block from an item on. -/
theorem walk_items {V : Visitor σ} {R : Scanner (List UInt8) Property Stop σ} (hV : Reads V R)
    (hb : b.length < 2 ^ 32) (hsp : Spells b strings items tags)
    (hpl : Placed b p (encode items ++ be32 9)) (hend : endTk = p + (encode items).length + 4)
    (hd : endTk ≤ endDtb) (hn : items.length + 2 ≤ n) :
    Extends (tags.foldlM R.step s) (walk V b strings endTk endDtb n p s) := by
  induction hsp generalizing p n s with
  | nil =>
    obtain ⟨n, rfl⟩ := Nat.exists_eq_add_of_le hn
    have hlen : (encode []).length = 0 := rfl
    apply Extends.of_eq
    rw [show ([] : List Item).length + 2 + n = n + 1 + 1 by simp only [List.length_nil]; omega,
      walk_succ (by omega) hd hpl (by decide), if_neg (by decide), if_neg (by decide),
      if_neg (by decide), walk, if_neg (by omega)]
    rfl
  | @nop items tags hrest ih =>
    obtain ⟨n, rfl⟩ : ∃ m, n = m + 1 := ⟨n - 1, by rw [List.length_cons] at hn; omega⟩
    rw [encode_cons, List.append_assoc, Placed.append_iff] at hpl
    have hlen : (encode (.nop :: items)).length = 4 + (encode items).length := by
      rw [encode_cons, List.length_append]
      rfl
    rw [walk_succ (by omega) hd hpl.1 (by decide), if_neg (by decide), if_neg (by decide),
      if_neg (by decide)]
    exact ih hpl.2 (by omega) (by rw [List.length_cons] at hn; omega)
  | @endNode items tags hrest ih =>
    obtain ⟨n, rfl⟩ : ∃ m, n = m + 1 := ⟨n - 1, by rw [List.length_cons] at hn; omega⟩
    rw [encode_cons, List.append_assoc, Placed.append_iff] at hpl
    have hlen : (encode (.endNode :: items)).length = 4 + (encode items).length := by
      rw [encode_cons, List.length_append]
      rfl
    rw [walk_succ (by omega) hd hpl.1 (by decide), if_neg (by decide), if_pos rfl, hV.closing]
    exact ih hpl.2 (by omega) (by rw [List.length_cons] at hn; omega)
  | @beginNode items tags name hclean hrest ih =>
    obtain ⟨n, rfl⟩ : ∃ m, n = m + 1 := ⟨n - 1, by rw [List.length_cons] at hn; omega⟩
    rw [encode_cons, List.append_assoc, Placed.append_iff] at hpl
    obtain ⟨hitem, hbehind⟩ := hpl
    obtain ⟨htoken, ⟨rest, hdrop⟩, hlen⟩ := placed_beginNode hb hitem
    rw [encode_cons, List.length_append, hlen] at hend
    rw [walk_succ (by omega) hd htoken (by decide), if_pos rfl, hdrop, kstrlen_eq hclean]
    apply (hV.opening name rest s hclean).bind
    intro s
    rw [hlen, ← Nat.add_assoc] at hbehind
    exact ih hbehind (by omega) (by rw [List.length_cons] at hn; omega)
  | @prop items tags nameoff pr hclean hoff hnamed hrest ih =>
    obtain ⟨n, rfl⟩ : ∃ m, n = m + 1 := ⟨n - 1, by rw [List.length_cons] at hn; omega⟩
    rw [encode_cons, List.append_assoc, Placed.append_iff] at hpl
    obtain ⟨hitem, hbehind⟩ := hpl
    obtain ⟨htoken, hlength, hnameoff, hvalue, hsmall, hlen⟩ := placed_prop hb hitem
    rw [encode_cons, List.length_append, hlen] at hend
    rw [walk_succ (by omega) hd htoken (by decide), if_neg (by decide), if_neg (by decide),
      if_pos rfl, word_eq hlength hsmall]
    apply (hV.property b strings (p + 4) nameoff pr s hclean hsmall hoff hnamed
      hnameoff hvalue).bind
    intro s
    rw [hlen] at hbehind
    exact ih (by rwa [Nat.add_assoc, Nat.add_assoc, ← Nat.add_assoc 4]) (by omega)
      (by rw [List.length_cons] at hn; omega)

/-- Every item takes one word or more. -/
theorem length_le_encode (items : List Item) : items.length * 4 ≤ (encode items).length := by
  induction items with
  | nil => exact Nat.zero_le _
  | cons i items ih =>
    have hitem : 4 ≤ i.encode.length := by
      cases i <;> simp only [Item.encode, List.length_append, be32_length] <;> omega
    rw [encode_cons, List.length_append, List.length_cons]
    omega

/-- Items are whole words. -/
theorem encode_length_mod (items : List Item) : (encode items).length % 4 = 0 := by
  induction items with
  | nil => rfl
  | cons i items ih =>
    have hitem : i.encode.length % 4 = 0 := by
      cases i <;> simp only [Item.encode, List.length_append, be32_length, padded_length] <;> omega
    rw [encode_cons, List.length_append]
    omega

/-- A parser on a well-formed blob. -/
theorem parser_extends {V : Visitor σ} {R : Scanner (List UInt8) Property Stop σ} (hV : Reads V R)
    (h : Flattened b t) : Extends (R.forest t s) (parser V b s) := by
  obtain ⟨offDtStruct, offDtStrings, items, h⟩ := h
  have hblock := h.block.length_le (by simp [be32])
  rw [List.length_append, be32_length] at hblock
  have hitems := length_le_encode items
  have hmod := encode_length_mod items
  have hsmall := h.small
  rw [parser, word_eq h.magic (by decide), ok_bind, if_pos rfl, word_eq h.offStruct (by omega),
    ok_bind, word_eq h.offStrings h.strings, ok_bind, word_eq h.totalsize hsmall, ok_bind,
    word_eq h.sizeStruct (by omega), ok_bind]
  rw [← R.foldlM_flatten]
  exact walk_items hV hsmall h.spells h.block (by omega) (by omega) (by omega)

end RexOS.Dtb
