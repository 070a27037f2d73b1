import RexOS.Dtb.Tree

/-!
# Writing a blob

Every forest with names of bytes other than 0 has a well-formed blob, if it is not too large.
-/

namespace RexOS.Dtb

variable {b : Blob} {strings o : Nat} {tags : List (Tag (List UInt8) Property)} {t : Trees}

/-- The items for the tags; the next name goes to `o`. -/
def itemsOf : List (Tag (List UInt8) Property) → Nat → List Item
  | [], _ => []
  | .opening name :: tags, o => .beginNode name :: itemsOf tags o
  | .property p :: tags, o => .prop o p.value :: itemsOf tags (o + (p.name.length + 1))
  | .closing :: tags, o => .endNode :: itemsOf tags o

/-- The names of the properties. -/
def namesOf : List (Tag (List UInt8) Property) → List UInt8
  | [] => []
  | .opening _ :: tags => namesOf tags
  | .property p :: tags => p.name ++ [0] ++ namesOf tags
  | .closing :: tags => namesOf tags

/-- No name has a 0 in it. -/
def Clean : Tag (List UInt8) Property → Prop
  | .opening name => 0 ∉ name
  | .property p => 0 ∉ p.name
  | .closing => True

instance : DecidablePred Clean
  | .opening name => inferInstanceAs (Decidable (0 ∉ name))
  | .property p => inferInstanceAs (Decidable (0 ∉ p.name))
  | .closing => inferInstanceAs (Decidable True)

/-- The header before a structure block of `size` bytes and `names` bytes of strings. -/
def header (size names : Nat) : Blob :=
  be32 0xD00DFEED ++ be32 (40 + size + names) ++ be32 40 ++ be32 (40 + size) ++
    be32 40 ++ be32 17 ++
    be32 16 ++ be32 0 ++ be32 names ++ be32 size

/-- The structure block. -/
def structBlock (t : Trees) : List UInt8 := encode (itemsOf t.flatten 0) ++ be32 9

def blobOf (t : Trees) : Blob :=
  header (structBlock t).length (namesOf t.flatten).length ++ (structBlock t ++ namesOf t.flatten)

/-- The items spell the tags they were made from. -/
theorem spells_itemsOf (hclean : ∀ tag ∈ tags, Clean tag)
    (h : Placed b (strings + o) (namesOf tags)) (hsmall : o + (namesOf tags).length < 2 ^ 32) :
    Spells b strings (itemsOf tags o) tags := by
  induction tags generalizing o with
  | nil => exact .nil
  | cons tag tags ih =>
    rw [List.forall_mem_cons] at hclean
    cases tag with
    | opening name => exact .beginNode hclean.1 (ih hclean.2 h hsmall)
    | closing => exact .endNode (ih hclean.2 h hsmall)
    | property p =>
      rw [namesOf, Placed.append_iff] at h
      rw [namesOf, List.length_append, List.length_append, List.length_singleton] at hsmall
      refine .prop hclean.1 (by omega) h.1 (ih hclean.2 ?_ (by omega))
      have hnext := h.2
      rw [List.length_append, List.length_singleton] at hnext
      rwa [← Nat.add_assoc]

theorem header_length (size names : Nat) : (header size names).length = 40 := rfl

/-- What was written is well formed. -/
theorem flattened_blobOf (hclean : ∀ tag ∈ t.flatten, Clean tag)
    (hsmall : 40 + (structBlock t).length + (namesOf t.flatten).length < 2 ^ 32) :
    Flattened (blobOf t) t := by
  generalize hsize : (structBlock t).length = size at hsmall
  generalize hnames : (namesOf t.flatten).length = names at hsmall
  have hblob : Placed (blobOf t) 0 (header size names ++ (structBlock t ++ namesOf t.flatten)) := by
    rw [blobOf, hsize, hnames]
    exact List.prefix_refl _
  have hlen : (blobOf t).length = 40 + size + names := by
    rw [blobOf, List.length_append, List.length_append, header_length, hsize, hnames, Nat.add_assoc]
  rw [Placed.append_iff, Placed.append_iff, header_length, hsize] at hblob
  obtain ⟨hheader, hblock, hstrings⟩ := hblob
  unfold header at hheader
  simp only [Placed.append_iff, List.length_append, be32_length] at hheader
  refine ⟨40, 40 + size, itemsOf t.flatten 0, ?_⟩
  have henc : (encode (itemsOf t.flatten 0)).length + 4 = size := by
    rw [← hsize, structBlock, List.length_append, be32_length]
  exact {
    small := by omega
    strings := by omega
    magic := hheader.1.1.1.1.1.1.1.1.1
    totalsize := hlen ▸ hheader.1.1.1.1.1.1.1.1.2
    offStruct := hheader.1.1.1.1.1.1.1.2
    offStrings := hheader.1.1.1.1.1.1.2
    sizeStruct := henc ▸ hheader.2
    block := by
      rw [Nat.zero_add] at hblock
      exact hblock
    spells := spells_itemsOf hclean (by simpa using hstrings) (by omega) }

end RexOS.Dtb
