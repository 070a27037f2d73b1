import RexOS.Dtb.Walk

/-!
# Reads that stay inside the blob

When a read, a comparison of strings or a search ends well: it returns, or the kernel panics with
117, and no byte outside the blob has been read.
-/

namespace RexOS.Dtb

variable {α β : Type} {b : Blob} {p n : Nat} {s xs : List UInt8} {r : Read α} {P Q : α → Prop}

/-- It returns with `P`, or the kernel panics with 117. -/
def Ends (r : Read α) (P : α → Prop) : Prop :=
  match r with
  | .ok a => P a
  | .error e => e = .panic 117

@[simp] theorem ends_ok (a : α) (P : α → Prop) : Ends (.ok a) P ↔ P a := Iff.rfl

@[simp] theorem ends_pure (a : α) (P : α → Prop) : Ends (pure a) P ↔ P a := Iff.rfl

@[simp] theorem ends_outside (P : α → Prop) : ¬Ends (.error .outside) P := fun h => by cases h

@[simp] theorem ends_panic (P : α → Prop) : Ends (.error (.panic 117)) P := rfl

/-- One read after the other. -/
theorem ends_bind (r : Read α) (f : α → Read β) (P : β → Prop) :
    Ends (r >>= f) P ↔ Ends r fun a => Ends (f a) P := by
  cases r <;> exact Iff.rfl

/-- What is equivalent afterwards. -/
theorem ends_congr (h : ∀ a, P a ↔ Q a) : Ends r P ↔ Ends r Q := by
  cases r with
  | ok a => exact h a
  | error e => exact Iff.rfl

/-- A well ended read either returns or panics. -/
theorem ends_true : Ends r (fun _ => True) ↔ (∃ a, r = .ok a) ∨ r = .error (.panic 117) := by
  cases r with
  | ok a => simp [Ends]
  | error e => simp [Ends]

/-! ## Words -/

/-- Four bytes within the blob are there. -/
theorem load_of_le (h : p + 4 ≤ b.length) :
    ∃ b₀ b₁ b₂ b₃ rest, b.drop p = b₀ :: b₁ :: b₂ :: b₃ :: rest := by
  have hlen : (b.drop p).length = b.length - p := List.length_drop
  match hd : b.drop p with
  | b₀ :: b₁ :: b₂ :: b₃ :: rest => exact ⟨b₀, b₁, b₂, b₃, rest, rfl⟩
  | [] | [_] | [_, _] | [_, _, _] =>
    rw [hd] at hlen
    simp only [List.length_cons, List.length_nil] at hlen
    omega

/-- Four bytes are a word and back. -/
theorem be32_beValue (b₀ b₁ b₂ b₃ : UInt8) :
    be32 (beValue [b₀, b₁, b₂, b₃]) = [b₀, b₁, b₂, b₃] := by
  have h₀ := b₀.toNat_lt
  have h₁ := b₁.toNat_lt
  have h₂ := b₂.toNat_lt
  have h₃ := b₃.toNat_lt
  simp only [beValue, List.foldl_cons, List.foldl_nil, be32, List.cons.injEq, and_true,
    ← UInt8.toNat_inj, UInt8.toNat_ofNat']
  omega

/-- The word is small. -/
theorem beValue_lt (b₀ b₁ b₂ b₃ : UInt8) : beValue [b₀, b₁, b₂, b₃] < 2 ^ 32 := by
  have h₀ := b₀.toNat_lt
  have h₁ := b₁.toNat_lt
  have h₂ := b₂.toNat_lt
  have h₃ := b₃.toNat_lt
  simp only [beValue, List.foldl_cons, List.foldl_nil]
  omega

/-- A word inside the blob. -/
theorem exists_word (h : p + 4 ≤ b.length) : ∃ x < 2 ^ 32, Placed b p (be32 x) ∧
    word b p = .ok x := by
  obtain ⟨b₀, b₁, b₂, b₃, rest, hd⟩ := load_of_le h
  have hpl : Placed b p (be32 (beValue [b₀, b₁, b₂, b₃])) := by
    rw [be32_beValue, Placed, hd]
    exact ⟨rest, rfl⟩
  exact ⟨_, beValue_lt .., hpl, word_eq hpl (beValue_lt ..)⟩

/-- A word behind the end is an error. -/
theorem word_outside (h : ¬p + 4 ≤ b.length) : word b p = .error .outside := by
  have hlen : (b.drop p).length = b.length - p := List.length_drop
  have hload : load b p = .error .outside := by
    rw [load]
    split
    · rename_i hd
      rw [hd] at hlen
      simp only [List.length_cons] at hlen
      omega
    · rfl
  rw [word, hload]
  rfl

/-- A word within the blob is read. -/
theorem ends_word (P : Nat → Prop) :
    Ends (word b p) P ↔ ∃ x < 2 ^ 32, Placed b p (be32 x) ∧ P x := by
  by_cases h : p + 4 ≤ b.length
  · obtain ⟨x, hx, hpl, hword⟩ := exists_word h
    rw [hword, ends_ok]
    constructor
    · exact fun hP => ⟨x, hx, hpl, hP⟩
    · rintro ⟨y, hy, hpl', hP⟩
      have he := (word_eq hpl' hy).symm.trans hword
      rwa [← Except.ok.inj he]
  · rw [word_outside h]
    constructor
    · exact fun hout => absurd hout (ends_outside P)
    · rintro ⟨y, -, hpl, -⟩
      exact absurd (hpl.length_le (by simp [be32])) h

/-- It is read whatever it is. -/
theorem ends_word_iff (Q : Prop) : Ends (word b p) (fun _ => Q) ↔ p + 4 ≤ b.length ∧ Q := by
  rw [ends_word]
  constructor
  · rintro ⟨x, -, hpl, hQ⟩
    exact ⟨hpl.length_le (by simp [be32]), hQ⟩
  · rintro ⟨hle, hQ⟩
    obtain ⟨x, hx, hpl, -⟩ := exists_word hle
    exact ⟨x, hx, hpl, hQ⟩

/-- So are two cells. -/
theorem ends_cells_iff (Q : Prop) : Ends (cells b p) (fun _ => Q) ↔ p + 8 ≤ b.length ∧ Q := by
  have hlow : ∀ high, Ends (word b (p + 4) >>= fun low => pure (high <<< 32 ||| low)) (fun _ => Q) ↔
      p + 4 + 4 ≤ b.length ∧ Q := fun high => (ends_bind _ _ _).trans (ends_word_iff Q)
  rw [cells, ends_bind, ends_congr hlow, ends_word_iff]
  constructor
  · rintro ⟨-, hle, hQ⟩
    exact ⟨hle, hQ⟩
  · rintro ⟨hle, hQ⟩
    exact ⟨by omega, hle, hQ⟩

/-! ## Comparisons -/

/-- The blob ends where it still looks like the string. -/
def Cut (xs : List UInt8) (w : String) : Prop := xs <+: chars w

/-- Comparing reads to the first difference, or behind the end. -/
theorem kstrcmp_cases (hs : 0 ∉ s) : kstrcmp (s ++ [0]) xs =
    if xs <+: s then .error .outside else .ok (decide (s ++ [0] <+: xs)) := by
  induction s generalizing xs with
  | nil =>
    cases xs with
    | nil => rfl
    | cons y ys =>
      by_cases hy : (0 : UInt8) = y
      · simp [kstrcmp, ← hy]
      · simp [kstrcmp, hy]
  | cons c s ih =>
    rw [List.mem_cons, not_or] at hs
    cases xs with
    | nil => simp [kstrcmp]
    | cons y ys =>
      rw [List.cons_append, kstrcmp]
      by_cases hy : c = y
      · subst hy
        rw [if_neg (by simp), if_neg (Ne.symm hs.1), ih hs.2]
        simp
      · rw [if_pos hy, if_neg (by simp [Ne.symm hy])]
        simp [hy]

/-- The comparison with a name ends inside the blob unless that is cut off. -/
theorem ends_kstrcmp {w : String} (hw : 0 ∉ chars w) (P : Bool → Prop) :
    Ends (kstrcmp (cstr w) xs) P ↔ ¬Cut xs w ∧ P (decide (cstr w <+: xs)) := by
  have hcases : kstrcmp (cstr w) xs =
      if xs <+: chars w then .error .outside else .ok (decide (cstr w <+: xs)) := kstrcmp_cases hw
  rw [hcases, Cut]
  split
  · rename_i hcut
    simp [hcut]
  · rename_i hcut
    simp [hcut]

/-- A length that is found is that of a string in the blob. -/
theorem kstrlen_inv (h : kstrlen xs = .ok n) :
    ∃ name rest, xs = name ++ 0 :: rest ∧ 0 ∉ name ∧ name.length = n := by
  induction xs generalizing n with
  | nil => cases h
  | cons c xs ih =>
    rw [kstrlen] at h
    split at h
    · rename_i hc
      cases hk : kstrlen xs with
      | error e =>
        rw [hk] at h
        cases h
      | ok m =>
        rw [hk] at h
        obtain rfl := Except.ok.inj h
        obtain ⟨name, rest, rfl, hclean, rfl⟩ := ih hk
        exact ⟨c :: name, rest, rfl, by simp [Ne.symm hc, hclean], rfl⟩
    · rename_i hc
      obtain rfl := Except.ok.inj h
      exact ⟨[], xs, by rw [not_not.mp hc]; rfl, List.not_mem_nil, rfl⟩

/-- The length of a string ends inside the blob if the string does. -/
theorem ends_kstrlen (P : Nat → Prop) : Ends (kstrlen xs) P ↔
    ∃ name rest, xs = name ++ 0 :: rest ∧ 0 ∉ name ∧ P name.length := by
  constructor
  · intro h
    cases hk : kstrlen xs with
    | error e =>
      have hpanic : e = .panic 117 := by
        rw [hk] at h
        exact h
      subst hpanic
      exfalso
      clear h
      induction xs with
      | nil => cases hk
      | cons c xs ih =>
        rw [kstrlen] at hk
        split at hk
        · cases hk' : kstrlen xs with
          | error e =>
            rw [hk'] at hk
            obtain rfl := Except.error.inj hk
            exact ih hk'
          | ok m =>
            rw [hk'] at hk
            cases hk
        · cases hk
    | ok n =>
      rw [hk, ends_ok] at h
      obtain ⟨name, rest, hxs, hclean, rfl⟩ := kstrlen_inv hk
      exact ⟨name, rest, hxs, hclean, h⟩
  · rintro ⟨name, rest, rfl, hclean, hP⟩
    rw [kstrlen_eq hclean]
    exact hP

/-- A test for a beginning. -/
theorem kstrHasPrefix_cases (hs : 0 ∉ s) : kstrHasPrefix (s ++ [0]) xs =
    if s <+: xs then .ok true else if xs <+: s then .error .outside else .ok false := by
  induction s generalizing xs with
  | nil => simp [kstrHasPrefix]
  | cons c s ih =>
    rw [List.mem_cons, not_or] at hs
    cases xs with
    | nil => simp [kstrHasPrefix, Ne.symm hs.1]
    | cons y ys =>
      rw [List.cons_append, kstrHasPrefix, if_neg (Ne.symm hs.1)]
      by_cases hy : c = y
      · subst hy
        rw [if_neg (Ne.symm hs.1), if_neg (by simp), ih hs.2]
        simp
      · have hne : ¬(c :: s <+: y :: ys) := by simp [hy]
        have hne' : ¬(y :: ys <+: c :: s) := by simp [Ne.symm hy]
        rw [if_neg hne, if_neg hne']
        split <;> rfl

/-! ## Searches in a list -/

/-- The strings from `itr` on up to `strLen` end inside the blob, as far as a search for `w` goes;
it ends with `found`. -/
inductive Scans (str : List UInt8) (w : String) (strLen : Nat) : Nat → Bool → Prop
  | behind {itr} (h : strLen ≤ itr) : Scans str w strLen itr false
  | found {itr} (h : itr < strLen) (hw : chars w <+: str.drop itr) : Scans str w strLen itr true
  | next {itr name found} (h : itr < strLen) (hw : ¬chars w <+: str.drop itr)
      (hname : Placed str itr (name ++ [0])) (hclean : 0 ∉ name)
      (rest : Scans str w strLen (itr + name.length + 1) found) : Scans str w strLen itr found

variable {str : List UInt8} {w : String} {strLen itr : Nat} {found : Bool}

/-- A string that is cut off has no end. -/
theorem clean_of_isPrefix (hs : 0 ∉ s) (h : xs <+: s) {name rest : List UInt8} :
    xs ≠ name ++ 0 :: rest := by
  rintro rfl
  exact hs (h.subset (by simp))

/-- The loop over a list follows the strings. -/
theorem ends_match (hw : 0 ∉ chars w) (hsmall : str.length < 2 ^ 32) (hn : 1 ≤ n)
    (hfuel : str.length + 1 ≤ n + itr) (P : Bool → Prop) :
    Ends (dtbCompatibleMatchFrom (cstr w) str strLen n itr) P ↔
      ∃ found, Scans str w strLen itr found ∧ P found := by
  induction n generalizing itr with
  | zero => exact absurd hn (by decide)
  | succ n ih =>
    rw [dtbCompatibleMatchFrom]
    by_cases hitr : itr < strLen
    · have hprefix : kstrHasPrefix (cstr w) (str.drop itr) =
          if chars w <+: str.drop itr then .ok true
          else if str.drop itr <+: chars w then .error .outside else .ok false :=
        kstrHasPrefix_cases hw
      rw [if_pos hitr, hprefix]
      by_cases hfound : chars w <+: str.drop itr
      · rw [if_pos hfound, ok_bind, if_pos rfl, ends_pure]
        constructor
        · exact fun hP => ⟨true, .found hitr hfound, hP⟩
        · rintro ⟨found, hscan, hP⟩
          cases hscan with
          | behind h => exact absurd hitr (Nat.not_lt.mpr h)
          | found h hw' => exact hP
          | next h hw' hname hclean rest => exact absurd hfound hw'
      · rw [if_neg hfound]
        by_cases hcut : str.drop itr <+: chars w
        · rw [if_pos hcut]
          constructor
          · exact fun hout => absurd hout (ends_outside P)
          · rintro ⟨found, hscan, -⟩
            cases hscan with
            | behind h => exact absurd hitr (Nat.not_lt.mpr h)
            | found h hw' => exact absurd hw' hfound
            | next h hw' hname hclean rest =>
              obtain ⟨tail, htail⟩ := hname.drop_eq
              rw [List.append_assoc, List.singleton_append] at htail
              exact absurd htail (clean_of_isPrefix hw hcut)
        · rw [if_neg hcut, ok_bind, if_neg (by decide), ends_bind, ends_kstrlen]
          have hnext : ∀ name rest, str.drop itr = name ++ 0 :: rest →
              wrap32 (itr + name.length + 1) = itr + name.length + 1 ∧ 1 ≤ n ∧
                str.length + 1 ≤ n + (itr + name.length + 1) := by
            intro name rest hdrop
            have hlen := congrArg List.length hdrop
            rw [List.length_drop, List.length_append, List.length_cons] at hlen
            refine ⟨Nat.mod_eq_of_lt (by omega), by omega, by omega⟩
          constructor
          · rintro ⟨name, rest, hdrop, hclean, hends⟩
            obtain ⟨hwrap, h1, hfuel'⟩ := hnext name rest hdrop
            rw [hwrap, ih h1 hfuel'] at hends
            obtain ⟨found, hscan, hP⟩ := hends
            have hplaced : Placed str itr (name ++ [0]) :=
              ⟨rest, by rw [hdrop, List.append_assoc]; rfl⟩
            exact ⟨found, .next hitr hfound hplaced hclean hscan, hP⟩
          · rintro ⟨found, hscan, hP⟩
            cases hscan with
            | behind h => exact absurd hitr (Nat.not_lt.mpr h)
            | found h hw' => exact absurd hw' hfound
            | @next _ name _ h hw' hname hclean rest =>
              obtain ⟨tail, htail⟩ := hname.drop_eq
              rw [List.append_assoc, List.singleton_append] at htail
              obtain ⟨hwrap, h1, hfuel'⟩ := hnext name tail htail
              refine ⟨name, tail, htail, hclean, ?_⟩
              rw [hwrap, ih h1 hfuel']
              exact ⟨found, rest, hP⟩
    · rw [if_neg hitr, ends_pure]
      constructor
      · exact fun hP => ⟨false, .behind (Nat.not_lt.mp hitr), hP⟩
      · rintro ⟨found, hscan, hP⟩
        cases hscan with
        | behind h => exact hP
        | found h hw' => exact absurd h hitr
        | next h hw' hname hclean rest => exact absurd h hitr

end RexOS.Dtb
