import RexOS.Loader.Shows

/-!
# Stores behind a block

The block of a segment has the size that `p_memsz` asks for, and the loop that copies goes on for
`p_filesz` bytes. Here the loader records for each segment the addresses that its two loops store
to, beside the block they are meant for.
-/

namespace RexOS.Loader

open Bits RexOS.Kalloc RexOS.Paging

variable {β : Type} {A : PageAlloc β} {binary : Nat → UInt8}
  {userTable a buff filePtr j n order ra : Nat} {ph : Phdr} {phs : List Phdr} {s t u : Space β}
  {ram : Meta} {site : Site}

/-! ## The loader with a record -/

/-- The block of a segment and the addresses that its loops have stored to. -/
structure Fill where
  buff : Nat
  order : Nat
  writes : List Nat

/-- The stores fall inside the block. -/
def Fill.Inside (f : Fill) : Prop := ∀ a ∈ f.writes, ∃ k < 4096 * 2 ^ f.order, a = wrap (f.buff + k)

/-- A store of a byte and its address. -/
def tracedStore (x : Space β × List Nat) (addr : Nat) (v : UInt8) : Space β × List Nat :=
  (storeByte x.1 addr v, addr :: x.2)

/-- `copyLoop` with the addresses of its stores. -/
def tracedCopy (binary : Nat → UInt8) (filePtr buff : Nat) :
    Nat → Space β × List Nat → Space β × List Nat
  | 0, x => x
  | n + 1, x =>
    tracedStore (tracedCopy binary filePtr buff n x) (wrap (buff + n)) (binary (wrap (filePtr + n)))

/-- `zeroLoop` with the addresses of its stores. -/
def tracedZero (buff j : Nat) : Nat → Space β × List Nat → Space β × List Nat
  | 0, x => x
  | n + 1, x => tracedStore (tracedZero buff j n x) (wrap (buff + (j + n))) 0

section Traced

variable (A : PageAlloc β) (binary : Nat → UInt8) (userTable : Nat)

def tracedFill (ph : Phdr) (buff : Nat) (s : Space β) : Space β × List Nat :=
  tracedZero buff ph.pFilesz (ph.pMemsz - ph.pFilesz)
    (tracedCopy binary ph.pOffset buff ph.pFilesz (s, []))

def tracedSegment (ph : Phdr) (x : Space β × List Fill) : Outcome (Space β × List Fill) Unit :=
  match orderOf ph.pMemsz with
  | none => .spin x
  | some order =>
    ((kallocBlock A order x.1).within fun s => (s, x.2)).bind fun buff x =>
      let filled := tracedFill binary ph buff x.1
      (uvmMap A userTable ph.pVaddr buff (shiftPage order) (permOf ph.pFlags) filled.1).within
        fun s => (s, ⟨buff, order, filled.2⟩ :: x.2)

def tracedSegments (phentsize : Nat) :
    (n ph : Nat) → Space β × List Fill → Outcome (Space β × List Fill) Unit
  | 0, _, x => .done () x
  | n + 1, ph, x =>
    (if (phdrAt binary ph).pType = 1 then tracedSegment A binary userTable (phdrAt binary ph) x
      else .done () x).bind fun _ x => tracedSegments phentsize n (wrap (ph + phentsize)) x

end Traced

/-- `spawnProcess` with what the loops have stored. -/
def tracedSpawn (A : PageAlloc β) (site : Site) (binary : Nat → UInt8) (s : Space β) :
    Outcome (Space β × List Fill) (Option Nat) :=
  ((kallocBlock A 0 s).within fun s => (s, [])).bind fun processStack x =>
    if processStack = 0 then .done none x
    else
      let tf := wrapSub (wrap (processStack + 4096)) trapframeSize
      ((createUserTable A site.userTrampoline processStack (initTrapframe site tf x.1)).within
        fun s => (s, x.2)).bind fun userTable x =>
          let x := (x.1.store (entryAt tf 37) (satpOf userTable), x.2)
          if ¬ IsElf binary then .panic 116 site.pid x
          else
            (tracedSegments A binary userTable (Bytes.load binary 54 2) (Bytes.load binary 56 2)
              (Bytes.load binary 32 8) x).bind fun _ x =>
                (finishProcess A binary tf userTable x.1).within fun s => (s, x.2)

/-! ## The record changes nothing -/

/-- Recording the stores of the copy changes nothing. -/
theorem fst_tracedCopy (x : Space β × List Nat) :
    (tracedCopy binary filePtr buff n x).1 = copyLoop binary filePtr buff n x.1 := by
  induction n with
  | zero => rfl
  | succ n ih => rw [tracedCopy, copyLoop, tracedStore, ih]

/-- Recording those of the other loop changes nothing. -/
theorem fst_tracedZero (x : Space β × List Nat) :
    (tracedZero buff j n x).1 = zeroLoop buff j n x.1 := by
  induction n with
  | zero => rfl
  | succ n ih => rw [tracedZero, zeroLoop, tracedStore, ih]

/-- So the block is filled as before. -/
theorem fst_tracedFill : (tracedFill binary ph buff s).1 = fillBlock binary ph buff s := by
  rw [tracedFill, fst_tracedZero, fst_tracedCopy, fillBlock]

/-- Loading a segment with a record is loading it. -/
theorem tracedSegment_within (x : Space β × List Fill) :
    (tracedSegment A binary userTable ph x).within Prod.fst =
      loadSegment A binary userTable ph x.1 := by
  unfold tracedSegment loadSegment
  cases orderOf ph.pMemsz with
  | none => rfl
  | some order =>
    dsimp only
    rw [Outcome.within_bind fun buff s => uvmMap A userTable ph.pVaddr buff (shiftPage order)
      (permOf ph.pFlags) (fillBlock binary ph buff s), Outcome.within_within, Outcome.within_id]
    intro buff y
    rw [Outcome.within_within, Outcome.within_id, fst_tracedFill]

/-- A segment is loaded with a record exactly when it is loaded. -/
theorem loadSegment_done_iff {x : Space β × List Fill} :
    loadSegment A binary userTable ph x.1 = .done () u ↔
      ∃ y, tracedSegment A binary userTable ph x = .done () y ∧ y.1 = u := by
  rw [← tracedSegment_within, Outcome.within_eq_done]

/-- The same for the loop over the headers. -/
theorem tracedSegments_within (phentsize n p : Nat) (x : Space β × List Fill) :
    (tracedSegments A binary userTable phentsize n p x).within Prod.fst =
      loadSegments A binary userTable phentsize n p x.1 := by
  induction n generalizing p x with
  | zero => rfl
  | succ n ih =>
    rw [tracedSegments, loadSegments, Outcome.within_bind _ fun _ y => ih (wrap (p + phentsize)) y]
    split
    · rw [tracedSegment_within]
    · rfl

/-- The process that is made, or how it fails, is that of `spawn_process`. -/
theorem tracedSpawn_within :
    (tracedSpawn A site binary s).within Prod.fst = spawnProcess A site binary s := by
  unfold tracedSpawn spawnProcess
  rw [Outcome.within_bind, Outcome.within_within, Outcome.within_id]
  intro processStack x
  split
  · rfl
  · rw [Outcome.within_bind, Outcome.within_within, Outcome.within_id]
    intro userTable y
    dsimp only
    split
    · rfl
    · rw [Outcome.within_bind, tracedSegments_within]
      intro _ z
      rw [Outcome.within_within, Outcome.within_id]

/-! ## What is recorded -/

/-- Rounds that record an address each. -/
theorem mem_rounds (loop : Nat → Space β × List Nat) (addr : Nat → Nat)
    (hround : ∀ n, (loop (n + 1)).2 = addr n :: (loop n).2) :
    a ∈ (loop n).2 ↔ a ∈ (loop 0).2 ∨ ∃ k < n, a = addr k := by
  induction n with
  | zero => simp
  | succ n ih =>
    rw [hround, List.mem_cons, ih]
    constructor
    · rintro (rfl | hin | ⟨k, hk, rfl⟩)
      · exact Or.inr ⟨n, Nat.lt_succ_self n, rfl⟩
      · exact Or.inl hin
      · exact Or.inr ⟨k, Nat.lt_succ_of_lt hk, rfl⟩
    · rintro (hin | ⟨k, hk, rfl⟩)
      · exact Or.inr (Or.inl hin)
      · rcases Nat.lt_succ_iff_lt_or_eq.mp hk with hk | rfl
        · exact Or.inr (Or.inr ⟨k, hk, rfl⟩)
        · exact Or.inl rfl

/-- The copy stores at the addresses of the file part. -/
theorem mem_tracedCopy {x : Space β × List Nat} : a ∈ (tracedCopy binary filePtr buff n x).2 ↔
    a ∈ x.2 ∨ ∃ k < n, a = wrap (buff + k) :=
  mem_rounds (fun n => tracedCopy binary filePtr buff n x) (fun k => wrap (buff + k)) fun _ => rfl

/-- The other loop stores at the addresses behind it. -/
theorem mem_tracedZero {x : Space β × List Nat} : a ∈ (tracedZero buff j n x).2 ↔
    a ∈ x.2 ∨ ∃ k < n, a = wrap (buff + (j + k)) :=
  mem_rounds (fun n => tracedZero buff j n x) (fun k => wrap (buff + (j + k))) fun _ => rfl

/-- The bytes of the file and those behind them up to `p_memsz`. -/
theorem mem_tracedFill : a ∈ (tracedFill binary ph buff s).2 ↔
    ∃ k, (k < ph.pFilesz ∨ k < ph.pMemsz) ∧ a = wrap (buff + k) := by
  rw [tracedFill, mem_tracedZero, mem_tracedCopy]
  constructor
  · rintro ((hin | ⟨k, hk, rfl⟩) | ⟨k, hk, rfl⟩)
    · exact absurd hin List.not_mem_nil
    · exact ⟨k, Or.inl hk, rfl⟩
    · exact ⟨ph.pFilesz + k, Or.inr (by omega), rfl⟩
  · rintro ⟨k, hk, rfl⟩
    rcases Nat.lt_or_ge k ph.pFilesz with hlt | hge
    · exact Or.inl (Or.inr ⟨k, hlt, rfl⟩)
    · obtain ⟨i, rfl⟩ := Nat.exists_eq_add_of_le hge
      exact Or.inr ⟨i, by omega, rfl⟩

/-- The stores stay in a block that `p_memsz` fits into exactly if `p_filesz` does. -/
theorem inside_fill_iff (hk : order < maxOrder) (hmem : ph.pMemsz ≤ 4096 * 2 ^ order) :
    Fill.Inside ⟨buff, order, (tracedFill binary ph buff s).2⟩ ↔ ph.pFilesz ≤ 4096 * 2 ^ order := by
  constructor
  · intro hin
    by_contra hgt
    obtain ⟨k, hlt, he⟩ := hin _ (mem_tracedFill.mpr ⟨4096 * 2 ^ order, Or.inl (by omega), rfl⟩)
    have hpow : 2 ^ order ≤ 2 ^ 11 := Nat.pow_le_pow_right (by decide) (Nat.le_of_lt_succ hk)
    have hlt : k < 4096 * 2 ^ order := hlt
    have he : (buff + 4096 * 2 ^ order) % 2 ^ 64 = (buff + k) % 2 ^ 64 := he
    omega
  · intro hfile a ha
    obtain ⟨k, hk, rfl⟩ := mem_tracedFill.mp ha
    refine ⟨k, ?_, rfl⟩
    show k < 4096 * 2 ^ order
    omega

/-! ## Segments -/

/-- Where the segment gets a block, `p_filesz` fits into it. -/
def Fits (A : PageAlloc β) (ph : Phdr) (u : Space β) : Prop :=
  ∀ order buff u', orderOf ph.pMemsz = some order → kallocBlock A order u = .done buff u' →
    ph.pFilesz ≤ 4096 * 2 ^ order

/-- So it is with each segment that the loop comes to, in the state that it comes to it in. -/
def FitAll (A : PageAlloc β) (binary : Nat → UInt8) (userTable : Nat) (phs : List Phdr)
    (t : Space β) : Prop :=
  ∀ qs ph, qs ++ [ph] <+: phs → ∀ u, loadAll A binary userTable qs t = .done () u → Fits A ph u

/-- No segment is left that has to fit. -/
theorem fitAll_nil : FitAll A binary userTable [] t := by
  intro qs ph hpre
  have hnil := List.prefix_nil.mp hpre
  exact absurd hnil (List.append_ne_nil_of_right_ne_nil _ (List.cons_ne_nil _ _))

/-- The next segment fits, and once it is loaded so do the others. -/
theorem fitAll_cons : FitAll A binary userTable (ph :: phs) t ↔ Fits A ph t ∧
    ∀ u, loadSegment A binary userTable ph t = .done () u → FitAll A binary userTable phs u := by
  constructor
  · intro h
    constructor
    · exact h [] ph (List.cons_prefix_cons.mpr ⟨rfl, List.nil_prefix⟩) t rfl
    · intro u hu qs q hpre v hv
      refine h (ph :: qs) q (List.cons_prefix_cons.mpr ⟨rfl, hpre⟩) v ?_
      rw [loadAll, hu]
      exact hv
  · rintro ⟨hfirst, hrest⟩ qs q hpre v hv
    cases qs with
    | nil =>
      obtain ⟨rfl, -⟩ := List.cons_prefix_cons.mp hpre
      cases hv
      exact hfirst
    | cons p qs =>
      obtain ⟨rfl, htail⟩ := List.cons_prefix_cons.mp hpre
      obtain ⟨_, u, hu, hv⟩ := Outcome.bind_eq_done.mp hv
      exact hrest u hu qs q htail v hv

/-- A segment loaded by the buddy allocator. -/
theorem inside_tracedSegment (binary : Nat → UInt8) (userTable : Nat)
    {x : Space State × List Fill} :
    (∀ f ∈ (tracedSegment (buddy ram ra) binary userTable ph x).state.2, f.Inside) ↔
      (∀ f ∈ x.2, f.Inside) ∧ Fits (buddy ram ra) ph x.1 := by
  unfold tracedSegment Fits
  cases ho : orderOf ph.pMemsz with
  | none => exact (and_iff_left fun order buff u' he => by cases he).symm
  | some order =>
    dsimp only
    cases hk : kallocBlock (buddy ram ra) order x.1 with
    | done buff u =>
      have hlt : order < maxOrder := by
        obtain ⟨_, _, hwithin, -⟩ := Outcome.bind_eq_done.mp hk
        obtain ⟨bd, hbd, -⟩ := Outcome.within_eq_done.mp hwithin
        exact order_of_kalloc hbd
      have hfill : Fill.Inside ⟨buff, order, (tracedFill binary ph buff u).2⟩ ↔
          ph.pFilesz ≤ 4096 * 2 ^ order := inside_fill_iff hlt (orderOf_spec ho hlt).1
      have hblock : ((Outcome.done buff u).within fun s => (s, x.2)) = .done buff (u, x.2) := rfl
      rw [hblock, Outcome.bind_done, Outcome.state_within, List.forall_mem_cons, hfill, and_comm]
      refine and_congr_right fun _ =>
        ⟨fun hle order' buff' u' he hd => ?_, fun hall => hall _ _ _ rfl hk⟩
      cases he
      exact hle
    | panic c y u =>
      refine (and_iff_left fun order' buff u' he hd => ?_).symm
      cases he
      rw [hk] at hd
      cases hd
    | spin u =>
      refine (and_iff_left fun order' buff u' he hd => ?_).symm
      cases he
      rw [hk] at hd
      cases hd

/-- The stores of the loop stay inside the blocks exactly when every segment fits. -/
theorem inside_tracedSegments (phentsize n p : Nat) {x : Space State × List Fill} :
    (∀ f ∈ (tracedSegments (buddy ram ra) binary userTable phentsize n p x).state.2, f.Inside) ↔
      (∀ f ∈ x.2, f.Inside) ∧ FitAll (buddy ram ra) binary userTable
        ((headers binary phentsize n p).filter fun ph => ph.pType = 1) x.1 := by
  induction n generalizing p x with
  | zero => exact (and_iff_left fitAll_nil).symm
  | succ n ih =>
    rw [tracedSegments, headers]
    by_cases ht : (phdrAt binary p).pType = 1
    · rw [if_pos ht, List.filter_cons_of_pos (by simpa using ht), fitAll_cons, ← and_assoc]
      rw [← inside_tracedSegment binary userTable]
      simp only [loadSegment_done_iff]
      cases tracedSegment (buddy ram ra) binary userTable (phdrAt binary p) x with
      | done _ y =>
        rw [Outcome.bind_done, ih]
        refine and_congr_right fun _ => ⟨?_, fun hall => hall y.1 ⟨y, rfl, rfl⟩⟩
        rintro hrest u ⟨z, hz, rfl⟩
        cases hz
        exact hrest
      | panic c a y =>
        refine (and_iff_left ?_).symm
        rintro u ⟨z, hz, -⟩
        cases hz
      | spin y =>
        refine (and_iff_left ?_).symm
        rintro u ⟨z, hz, -⟩
        cases hz
    · rw [if_neg ht, List.filter_cons_of_neg (by simpa using ht), Outcome.bind_done]
      exact ih _

/-! ## spawn_process -/

/-- `spawn_process` comes to the loop over the headers, with a table and in a state. -/
def ComesToLoop (A : PageAlloc β) (site : Site) (binary : Nat → UInt8) (s : Space β)
    (userTable : Nat) (t : Space β) : Prop :=
  ∃ processStack s₁ s₂, kallocBlock A 0 s = .done processStack s₁ ∧ processStack ≠ 0 ∧
    createUserTable A site.userTrampoline processStack
      (initTrapframe site (trapframeAt processStack) s₁) = .done userTable s₂ ∧
    IsElf binary ∧ t = s₂.store (entryAt (trapframeAt processStack) 37) (satpOf userTable)

/-- All that the two loops store falls inside the block of the segment, however the call ends. -/
def StaysInside (ram : Meta) (ra : Nat) (site : Site) (binary : Nat → UInt8) (s : Space State) :
    Prop :=
  ∀ f ∈ (tracedSpawn (buddy ram ra) site binary s).state.2, f.Inside

/-- What comes before the loops of segments stores nothing for them. -/
theorem inside_bind {α γ : Type} {o : Outcome (Space β) α} {l : List Fill}
    {f : α → Space β × List Fill → Outcome (Space β × List Fill) γ} (hl : ∀ x ∈ l, x.Inside) :
    (∀ x ∈ ((o.within fun s => (s, l)).bind f).state.2, x.Inside) ↔
      ∀ a s, o = .done a s → ∀ x ∈ (f a (s, l)).state.2, x.Inside := by
  cases o with
  | done a s =>
    refine ⟨fun h b t he => ?_, fun h => h a s rfl⟩
    cases he
    exact h
  | panic => exact iff_of_true hl fun a s he => by cases he
  | spin => exact iff_of_true hl fun a s he => by cases he

/-- Neither does what comes behind them. -/
theorem record_finish {γ : Type} {o : Outcome (Space β × List Fill) Unit}
    {f : Space β → Outcome (Space β) γ} :
    (o.bind fun _ x => (f x.1).within fun s => (s, x.2)).state.2 = o.state.2 := by
  cases o with
  | done _ x => rw [Outcome.bind_done, Outcome.state_within, Outcome.state_done]
  | panic => rfl
  | spin => rfl

/-- Nothing else of `spawn_process` fills a block. -/
theorem staysInside_iff (ram : Meta) (ra : Nat) (site : Site) (binary : Nat → UInt8)
    (s : Space State) :
    StaysInside ram ra site binary s ↔ ∀ userTable t,
      ComesToLoop (buddy ram ra) site binary s userTable t →
        FitAll (buddy ram ra) binary userTable (segments binary) t := by
  have hnone : ∀ f ∈ ([] : List Fill), f.Inside := fun f hf => absurd hf List.not_mem_nil
  have hloop : ∀ tf userTable t, (∀ f ∈ ((tracedSegments (buddy ram ra) binary userTable
      (Bytes.load binary 54 2) (Bytes.load binary 56 2) (Bytes.load binary 32 8) (t, [])).bind
        fun _ x =>
        (finishProcess (buddy ram ra) binary tf userTable x.1).within fun s => (s, x.2)).state.2,
      f.Inside) ↔ FitAll (buddy ram ra) binary userTable (segments binary) t := by
    intro tf userTable t
    rw [record_finish, inside_tracedSegments]
    exact and_iff_right hnone
  unfold StaysInside tracedSpawn
  rw [inside_bind hnone]
  constructor
  · rintro hall userTable t ⟨processStack, s₁, s₂, hstack, h0, htable, helf, rfl⟩
    have hrest := hall processStack s₁ hstack
    rw [if_neg h0] at hrest
    have hfills := (inside_bind hnone).mp hrest userTable s₂ htable
    rw [if_neg (not_not.mpr helf)] at hfills
    exact (hloop _ _ _).mp hfills
  · intro hfit processStack s₁ hstack
    by_cases h0 : processStack = 0
    · rw [if_pos h0]
      exact hnone
    rw [if_neg h0]
    apply (inside_bind hnone).mpr
    intro userTable s₂ htable
    by_cases helf : IsElf binary
    · rw [if_neg (not_not.mpr helf)]
      exact (hloop _ _ _).mpr
        (hfit userTable _ ⟨processStack, s₁, s₂, hstack, h0, htable, helf, rfl⟩)
    · rw [if_pos helf]
      exact hnone

/-- The loader with a record is `spawn_process`, and what it stores for segments stays in their
blocks exactly if `p_filesz` fits into the block that each segment it comes to gets for its
`p_memsz`. -/
theorem spawn_inside_iff (ram : Meta) (ra : Nat) (site : Site) (binary : Nat → UInt8)
    (s : Space State) :
    (tracedSpawn (buddy ram ra) site binary s).within Prod.fst =
      spawnProcess (buddy ram ra) site binary s ∧
    (StaysInside ram ra site binary s ↔ ∀ userTable t,
      ComesToLoop (buddy ram ra) site binary s userTable t →
        FitAll (buddy ram ra) binary userTable (segments binary) t) :=
  ⟨tracedSpawn_within, staysInside_iff ram ra site binary s⟩

/-- It is enough that the headers say so. -/
theorem staysInside_of_headers (ram : Meta) (ra : Nat) (site : Site) (s : Space State)
    (h : ∀ ph ∈ segments binary, ph.pMemsz ≤ 2 ^ 23 → ph.pFilesz ≤ ph.size) :
    StaysInside ram ra site binary s := by
  apply (staysInside_iff ram ra site binary s).mpr
  intro userTable t _ qs ph hpre u _ order buff u' ho hk
  have hin : ph ∈ segments binary := hpre.subset (List.mem_append_right _ List.mem_cons_self)
  have hlt : order < maxOrder := by
    obtain ⟨_, _, hwithin, -⟩ := Outcome.bind_eq_done.mp hk
    obtain ⟨bd, hbd, -⟩ := Outcome.within_eq_done.mp hwithin
    exact order_of_kalloc hbd
  have hsize : ph.size = 4096 * 2 ^ order := by rw [Phdr.size, Phdr.order, ho, Option.getD_some]
  rw [← hsize]
  exact h ph hin (orderOf_lt_iff.mp ⟨order, hlt, ho⟩)

/-! ## An image with more in the file than in memory -/

/-- The image with 32 KiB of its segment of 12 KiB in the file. -/
def overfull : Nat → UInt8
  | 97 => 0x80
  | a => image 1 a

theorem segments_overfull : segments overfull = [⟨1, 5, 0, 0, 0x8000, 0x3000⟩] := by decide

/-- `spawn_process` stores behind the block of 16 KiB. -/
theorem overfull_leaves : ∃ bd L, Tended virt virtBssEnd bd L ∧ IsElf overfull ∧
    ¬ StaysInside virt 0 virtSite overfull ⟨fun _ => 0, bd, [], []⟩ := by
  obtain ⟨bd, howns, hstock⟩ := virt_stock 0
  have helf : IsElf overfull := by decide
  refine ⟨bd, [], howns, helf, fun hin => ?_⟩
  -- where the file part is in order a process is made, so the segment gets a block
  have ht : virtSite.userTrampoline + 4096 ≤ 2 ^ 56 := by decide
  have hst : (buddy virt 0).Stock ((segments (image 1)).length + 1)
      (tablePages (segments (image 1)) + 9) bd := by
    rw [segments_image_one]
    exact (hstock 2 1 (by decide)).mono (by decide) (by decide)
  obtain ⟨satp, s', hrun⟩ := image_one_separate.returns virt_machine virt_blockAligned virt_fits
    (by decide) ht image_one_orderly.elf howns hst fun _ => 0
  obtain ⟨processStack, s₁, hstack, hrest⟩ := Outcome.bind_eq_done.mp hrun
  have h0 : processStack ≠ 0 := by
    rintro rfl
    cases hrest
  rw [if_neg h0] at hrest
  obtain ⟨userTable, s₂, htable, hrest⟩ := Outcome.bind_eq_done.mp hrest
  dsimp only at hrest
  rw [if_neg (not_not.mpr image_one_orderly.elf)] at hrest
  obtain ⟨_, s₃, hload, -⟩ := Outcome.bind_eq_done.mp hrest
  rw [loadSegments_eq, ← segments, segments_image_one] at hload
  obtain ⟨_, s₄, hsegment, -⟩ := Outcome.bind_eq_done.mp hload
  obtain ⟨buff, u, hblock, -⟩ := Outcome.bind_eq_done.mp hsegment
  have hfit := (staysInside_iff ..).mp hin userTable _
    ⟨processStack, s₁, s₂, hstack, h0, htable, helf, rfl⟩
  rw [segments_overfull] at hfit
  have hle := (fitAll_cons.mp hfit).1 2 buff u (by decide) hblock
  exact absurd hle (by decide)

end RexOS.Loader
