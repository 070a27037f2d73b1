import RexOS.Kvmalloc.Ledger

/-!
# Where an object goes back to

`kvmfree` finds out what an object is from the first word of its page. For a slab with its
header in the page that word is the allocator's; for every other object it is a client's.
As long as no such page begins with the address of an on-slab cache when the object comes
back, what clients store makes no difference to the allocator.
-/

namespace RexOS.Kvmalloc

open Kalloc (Grant PageAlloc State Granted buddy buddy_grants buddy_takesBack virt virtBssEnd)

variable {β : Type} {A : PageAlloc β} {Owns : β → List Grant → Prop} {cachesAt : Nat}
  {c c₁ c₂ d₁ d₂ : Config β} {a a' : Stock β} {s t : Heap β} {objs : List Obj} {L L' : List Grant}

/-- The lists of slabs are `hs`. -/
def Spells (s : Heap β) (hs : Nat → SlabList → List Nat) : Prop :=
  ∀ i < numCaches, ∀ k, Dll s.next s.prev 0 (s.head i k) (hs i k)

/-- The allocator's data is the same in both memories. -/
structure Alike (s t : Heap β) : Prop where
  pages : t.pages = s.pages
  slabs : ∀ h i, (h, i) ∈ t.slabs ↔ (h, i) ∈ s.slabs
  heads : ∀ i < numCaches, ∀ k, t.head i k = s.head i k
  headers : ∀ h i, (h, i) ∈ s.slabs →
    t.body h = s.body h ∧ t.next h = s.next h ∧ t.prev h = s.prev h
  chains : ∀ h i, (h, i) ∈ s.slabs →
    ∃ chain, Sll s.mem 0 (s.freeSlot h) chain ∧ Sll t.mem 0 (t.freeSlot h) chain

/-- Object `o` has gone back, between `s` and `t`, to where it is from. -/
structure Routed (A : PageAlloc β) (o : Obj) (s t : Heap β) : Prop where
  /-- An object of a cache is the first free slot of the slab of that cache it lies in. -/
  slot : ∀ i, classOf o.size = .cache i → t.pages = s.pages ∧ ∃ h, (h, i) ∈ s.slabs ∧
    o.addr ∈ slots i (s.virtStart h) ∧
    t.body h =
      { s.body h with activeObjCount := s.activeObjCount h - 1, freeSlot := o.addr } ∧
    t.mem o.addr = s.freeSlot h ∧
    (∀ z j, (z, j) ∈ s.slabs → z ≠ h → t.body z = s.body z) ∧
    ∃ hs hs', Spells s hs ∧ Spells t hs' ∧ ∀ j k, (hs' j k).erase h = (hs j k).erase h
  /-- A block of whole pages is given to `kfree`, and nothing else happens. -/
  block : ∀ k, classOf o.size = .pages k →
    A.kfree s.pages o.addr = .done () t.pages ∧ t.mem = s.mem ∧ t.caches = s.caches
  slabs : ∀ h i, (h, i) ∈ t.slabs ↔ (h, i) ∈ s.slabs
  mem : ∀ x, x ≠ o.addr → (∀ z j, (z, j) ∈ s.slabs → ¬ (z ≤ x ∧ x < z + 64)) → t.mem x = s.mem x

/-- Two steps that differ in what is stored at most. -/
def SameCall : Op → Op → Prop
  | .alloc size caller, .alloc size' caller' => size = size' ∧ caller = caller'
  | .free slot, .free slot' => slot = slot'
  | .write _, .write _ => True
  | _, _ => False

/-! ## What the stock determines -/

/-- Two memories that hold one stock have the allocator's data in common. -/
theorem Holds.alike {objs' : List Obj} (h : Holds cachesAt Owns s a objs L)
    (h' : Holds cachesAt Owns t a objs' L') :
    Alike s t where
  pages := h'.pages.trans h.pages.symm
  slabs z i := by rw [h'.rep.ghost, h.rep.ghost]
  heads i hi k := by
    rw [(h.rep.links.dll i hi k).seg.head_eq, (h'.rep.links.dll i hi k).seg.head_eq]
  headers z i hz := by
    obtain ⟨⟨j, k, sl⟩, he, rfl, rfl⟩ := (h.rep.ghost z i).mp hz
    refine ⟨(h'.rep.slab _ he).body.trans (h.rep.slab _ he).body.symm, ?_⟩
    exact (h.rep.links.dll j he.1 k).links_eq (h'.rep.links.dll j he.1 k) (header_mem he)
  chains z i hz := by
    obtain ⟨⟨j, k, sl⟩, he, rfl, rfl⟩ := (h.rep.ghost z i).mp hz
    refine ⟨sl.chain, ?_, ?_⟩
    · rw [h.rep.freeSlot_eq he]
      exact (h.rep.slab _ he).chain
    · rw [h'.rep.freeSlot_eq he]
      exact (h'.rep.slab _ he).chain

/-- But for one header an edit leaves the lists of headers alone. -/
theorem hdrs_edit_erase {shelf : Shelf} {i : Nat} {x y : SlabList} {sl sl' : ASlab}
    (hr : Rep cachesAt s shelf) (he : (⟨i, x, sl⟩ : Entry) ∈ entries shelf)
    (hh : sl'.header = sl.header) (j : Nat) (k : SlabList) :
    (hdrs (edit shelf i x y sl') j k).erase sl.header = (hdrs shelf j k).erase sl.header := by
  by_cases hxy : x = y
  · subst hxy
    rw [hdrs_edit_same]
  · have hnd := (hr.links.dll i he.1 x).nodup
    have hnot : ∀ l, l ≠ x → sl.header ∉ hdrs shelf i l := fun l hl hm =>
      hl (hr.links.apart i he.1 i he.1 l x _ hm (header_mem he)).2
    rw [hdrs_edit_move hh hnd hxy, Links.moved]
    by_cases h1 : j = i ∧ k = y
    · obtain ⟨rfl, rfl⟩ := h1
      rw [setList_self, List.erase_cons_head, List.erase_of_not_mem (hnot k (Ne.symm hxy))]
    · rw [setList_ne _ _ h1]
      by_cases h2 : j = i ∧ k = x
      · obtain ⟨rfl, rfl⟩ := h2
        rw [setList_self, List.erase_of_not_mem (fun hm => (hnd.mem_erase_iff.mp hm).1 rfl)]
      · rw [setList_ne _ _ h2]

/-- A call of `kvmfree` as the stock sees it, read off memory. -/
theorem Freed.routed (h : Holds cachesAt Owns s a objs L) {o : Obj} (ho : o ∈ objs)
    (hfree : a.free A o = .done () a') (hf : Freed cachesAt Owns o s a objs t a') :
    Routed A o s t := by
  obtain ⟨L', h'⟩ := hf.holds
  have hmem : ∀ x, x ≠ o.addr → (∀ z j, (z, j) ∈ s.slabs → ¬ (z ≤ x ∧ x < z + 64)) →
      t.mem x = s.mem x := by
    refine fun x hx hz => hf.mem x hx ?_
    rintro _ ⟨e, he, rfl⟩
    exact hz _ _ ((h.rep.ghost _ _).mpr ⟨e, he, rfl, rfl⟩)
  cases hc : classOf o.size with
  | pages k =>
    obtain ⟨hm, hcaches⟩ := hf.rest k hc
    simp only [Stock.free, hc] at hfree
    obtain ⟨b, hrun, rfl⟩ := Outcome.within_eq_done.mp hfree
    refine ⟨fun i hi => by simp [hc] at hi, fun n hn => ⟨?_, hm, hcaches⟩, fun z i => ?_, hmem⟩
    · rw [h.pages, hrun, h'.pages]
    · rw [h'.rep.ghost, h.rep.ghost]
  | cache i =>
    obtain ⟨⟨i, k, sl⟩, he, rfl, hslot, hne, hlt, hpage⟩ := exists_slab h.layout ho hc
    simp only [Stock.free, hc] at hfree
    obtain ⟨_, rfl⟩ := Outcome.done.inj hfree
    have hput := putSlot_eq h.layout he hpage hne
    have hrep := h'.rep
    simp only at hput hrep hslot hlt hpage
    rw [hput] at hrep
    have hentries := entries_edit h.layout he (header_chain sl (o.addr :: sl.chain))
      (y := if k = .listPartial ∧ sl.chain.length + 1 =
        capacity i then .listEmpty else .listPartial)
    have hnew := (hentries _).mpr (Or.inr rfl)
    have hbody := (h.rep.slab _ he).body
    have hbody' := (hrep.slab _ hnew).body
    refine ⟨fun j hj => ?_, fun n hn => by simp [hc] at hn, fun z j => ?_, hmem⟩
    · obtain rfl := Class.cache.inj (hc.symm.trans hj)
      refine ⟨h'.pages.trans h.pages.symm, sl.header, (h.rep.ghost _ _).mpr ⟨_, he, rfl, rfl⟩, ?_,
        ?_, ?_, fun z j hz hne => ?_, hdrs a.shelf, _, h.rep.links.dll,
          hrep.links.dll, fun j l => ?_⟩
      · rw [show s.virtStart sl.header = sl.page from congrArg Body.virtStart hbody]
        exact hslot
      · have hcount := h.rep.activeObjCount_eq he
        rw [hbody', hbody, hcount]
        refine Body.ext rfl ?_ rfl rfl rfl rfl
        simp only [ASlab.body, List.length_cons]
        omega
      · obtain ⟨_, _, hrest⟩ := (hrep.slab _ hnew).chain
        rw [h.rep.freeSlot_eq he, hrest.head_eq]
      · obtain ⟨f, hf, rfl, rfl⟩ := (h.rep.ghost z j).mp hz
        have hf' := (hentries f).mpr (Or.inl ⟨hf, fun hfe => hne (by rw [hfe])⟩)
        exact (hrep.slab _ hf').body.trans (h.rep.slab _ hf).body.symm
      · exact hdrs_edit_erase h.rep he (header_chain sl (o.addr :: sl.chain)) j l
    · rw [hrep.ghost, h.rep.ghost]
      constructor
      · rintro ⟨f, hf, hfz, hfj⟩
        rcases (hentries f).mp hf with ⟨hf, _⟩ | rfl
        · exact ⟨f, hf, hfz, hfj⟩
        · exact ⟨_, he, hfz, hfj⟩
      · rintro ⟨f, hf, hfz, hfj⟩
        by_cases hfe : f = ⟨i, k, sl⟩
        · subst hfe
          exact ⟨_, hnew, hfz, hfj⟩
        · exact ⟨f, (hentries f).mpr (Or.inl ⟨hf, hfe⟩), hfz, hfj⟩

/-! ## Two runs -/

/-- Two configurations with one stock and one ledger. -/
def Twin (cachesAt : Nat) (Owns : β → List Grant → Prop) (c₁ c₂ : Config β) : Prop :=
  c₁.live = c₂.live ∧ ∃ a, Keeps cachesAt Owns c₁ a ∧ Keeps cachesAt Owns c₂ a

/-- What is stored does not reach the stock. -/
theorem Stock.step_sameCall {live : List Obj} {op₁ op₂ : Op} (h : SameCall op₁ op₂) :
    a.step A live op₁ = a.step A live op₂ := by
  cases op₁ <;> cases op₂ <;> simp only [SameCall] at h
  · obtain ⟨rfl, rfl⟩ := h
    rfl
  · rw [h]
  · rfl

/-- One step of both. -/
theorem Twin.onStep (hA : A.Grants Owns) (hT : A.TakesBack Owns) (h : Twin cachesAt Owns c₁ c₂)
    {op₁ op₂ : Op} (hp₁ : Proper c₁ op₁ ∧ FreesGenuine cachesAt c₁ op₁)
    (hp₂ : Proper c₂ op₂ ∧ FreesGenuine cachesAt c₂ op₂) (hop : SameCall op₁ op₂)
    (hs₁ : step A cachesAt c₁ op₁ = some d₁) (hs₂ : step A cachesAt c₂ op₂ = some d₂) :
    Twin cachesAt Owns d₁ d₂ := by
  obtain ⟨hlive, a, hk₁, hk₂⟩ := h
  obtain ⟨a₁, h₁, hd₁⟩ := hk₁.onStep hA (fun _ _ _ _ => hT) hp₁.1 hp₁.2 hs₁
  obtain ⟨a₂, h₂, hd₂⟩ := hk₂.onStep hA (fun _ _ _ _ => hT) hp₂.1 hp₂.2 hs₂
  rw [hlive, Stock.step_sameCall hop, h₂] at h₁
  obtain ⟨rfl, hl⟩ := Prod.mk.inj (Option.some.inj h₁)
  exact ⟨hl.symm, a₂, hd₁, hd₂⟩

/-- Two runs that differ in what clients stored at most, with genuine objects freed, keep the
allocator's data alike; and a genuine object goes back to where it is from in both. -/
theorem routed_of_runs (hA : A.Grants Owns) (hT : A.TakesBack Owns) {h₁ h₂ : List (Config β × Op)}
    (hb : Boot Owns c) (hr₁ : Run (step A cachesAt) c h₁ d₁) (hr₂ : Run (step A cachesAt) c h₂ d₂)
    (hsame : List.Forall₂ (fun x y => SameCall x.2 y.2) h₁ h₂)
    (hop₁ : Run.Steps (fun c op => Proper c op ∧ FreesGenuine cachesAt c op) h₁)
    (hop₂ : Run.Steps (fun c op => Proper c op ∧ FreesGenuine cachesAt c op) h₂) :
    Alike d₁.heap d₂.heap ∧ d₁.live = d₂.live ∧
      ∀ o ∈ d₁.live, Genuine cachesAt d₁.heap o → Genuine cachesAt d₂.heap o →
        ∃ t₁ t₂, kvmfree A cachesAt d₁.heap o.addr = .done () t₁ ∧
          kvmfree A cachesAt d₂.heap o.addr = .done () t₂ ∧
          Routed A o d₁.heap t₁ ∧ Routed A o d₂.heap t₂ ∧ Alike t₁ t₂ := by
  have hk := hb.keeps cachesAt hA
  obtain ⟨hlive, a, ⟨L₁, hh₁⟩, L₂, hh₂⟩ := hr₁.paired (I := Twin cachesAt Owns) hr₂ hsame hop₁ hop₂
    ⟨rfl, _, hk, hk⟩ fun _ _ _ _ _ _ h hp hq hc hs hs' => h.onStep hA hT hp hq hc hs hs'
  refine ⟨hh₁.alike hh₂, hlive, fun o ho hg₁ hg₂ => ?_⟩
  have ho₂ : o ∈ d₂.live := hlive ▸ ho
  obtain ⟨t₁, a₁, hrun₁, hfree₁, hf₁⟩ := kvmfree_spec hh₁ ho (fun _ _ => hT) hg₁
  obtain ⟨t₂, a₂, hrun₂, hfree₂, hf₂⟩ := kvmfree_spec hh₂ ho₂ (fun _ _ => hT) hg₂
  obtain ⟨_, rfl⟩ := Outcome.done.inj (hfree₁.symm.trans hfree₂)
  obtain ⟨_, hd₁⟩ := hf₁.holds
  obtain ⟨_, hd₂⟩ := hf₂.holds
  exact ⟨t₁, t₂, hrun₁, hrun₂, hf₁.routed hh₁ ho hfree₁, hf₂.routed hh₂ ho₂ hfree₂, hd₁.alike hd₂⟩

/-! ## A block of two pages on the board -/

/-- An address of `kvmalloc_caches` in the kernel image. -/
def virtCaches : Nat := 0x80010000

/-- Memory after a client has stored into its objects. -/
def stores (c : Config State) (stored : Nat → Nat) : Config State :=
  ⟨{ c.heap with mem := overwrite c.live stored c.heap.mem }, c.live⟩

/-- A client asks for 8 KiB and gets a block of the buddy allocator. -/
theorem virt_block : ∃ c m p, Boot (Granted virt virtBssEnd) c ∧
    step (buddy virt 0) virtCaches c (.alloc 8192 0) = some m ∧ m.live = [⟨p, 8192⟩] ∧
    4096 ∣ p ∧ 0 < p := by
  have hA := buddy_grants 0 Kalloc.virt_machine Kalloc.virt_fits
  obtain ⟨c, hb, hpages⟩ := exists_boot 0
  obtain ⟨p, b, hrun⟩ := hpages 1 (by decide)
  obtain ⟨L, hh⟩ := hb.keeps virtCaches hA
  obtain ⟨_, howns⟩ := hA.kalloc hh.owns hrun
  obtain ⟨hdvd, hpos, _⟩ := (hA.blocks howns).page _ List.mem_cons_self
  refine ⟨c, ⟨{ c.heap with pages := b }, [⟨p, 8192⟩]⟩, p, hb, ?_, rfl, hdvd, hpos⟩
  refine step_alloc.mpr ⟨p, ?_, by rw [hb.1]⟩
  have horder : orderFor 8192 = some 1 := by decide
  unfold kvmalloc
  rw [if_neg (by decide), if_neg (by decide), horder]
  simp only [hrun, Outcome.within]

/-- What a client has stored in its block is what memory holds there. -/
theorem stores_mem {m : Config State} {p : Nat} (hl : m.live = [⟨p, 8192⟩]) (stored : Nat → Nat)
    {x : Nat} (hx : x < 8192) : (stores m stored).heap.mem (p + x) = stored (p + x) := by
  have hc : classOf 8192 = .pages 1 := by decide
  have hlen : Obj.len ⟨p, 8192⟩ = 8192 := by simp [Obj.len, hc]
  have hcell : (⟨p, 8192⟩ : Obj).Cell (p + x) :=
    ⟨Nat.le_add_right _ _, by rw [hlen]; simp only; omega⟩
  simp [stores, overwrite, hl, hcell]

/-- Masking does not change a page. -/
theorem andNot_page {p : Nat} (hp : 4096 ∣ p) : Bits.andNot p 0xFFF = p := by
  obtain ⟨q, rfl⟩ := hp
  refine (Bits.andNot_mask _ 12).trans ?_
  omega

/-- A block that begins with a word that is no address of a cache is genuine. -/
theorem stores_genuine {m : Config State} {p v : Nat} (hl : m.live = [⟨p, 8192⟩]) (hp : 4096 ∣ p)
    (hv : v < virtCaches) {o : Obj} (ho : o ∈ (stores m fun _ => v).live) :
    Genuine virtCaches (stores m fun _ => v).heap o := by
  have ho' : o = ⟨p, 8192⟩ := by simpa [stores, hl] using ho
  right
  intro i _
  rw [ho', andNot_page hp, ← Nat.add_zero p, stores_mem hl _ (by decide)]
  unfold cacheAddr
  omega

/-- Two clients store different things in 8 KiB, and the block goes back alike. -/
theorem routed_of_runs_virt : ∃ (c m : Config State) (o : Obj) (t₁ t₂ : Heap State),
    Boot (Granted virt virtBssEnd) c ∧
    Run (step (buddy virt 0) virtCaches) c [(m, .write fun _ => 0), (c, .alloc 8192 0)]
      (stores m fun _ => 0) ∧
    Run (step (buddy virt 0) virtCaches) c [(m, .write fun _ => 1), (c, .alloc 8192 0)]
      (stores m fun _ => 1) ∧
    Routed (buddy virt 0) o (stores m fun _ => 0).heap t₁ ∧
    Routed (buddy virt 0) o (stores m fun _ => 1).heap t₂ ∧ Alike t₁ t₂ := by
  have hA := buddy_grants 0 Kalloc.virt_machine Kalloc.virt_fits
  have hT := buddy_takesBack 0 Kalloc.virt_machine
  obtain ⟨c, m, p, hb, hs, hl, hdvd, _⟩ := virt_block
  have hr : ∀ v, Run (step (buddy virt 0) virtCaches) c
      [(m, .write fun _ => v), (c, .alloc 8192 0)] (stores m fun _ => v) := fun v =>
    (Run.nil.snoc hs).snoc rfl
  have hop : ∀ v, Run.Steps (fun c op => Proper c op ∧ FreesGenuine virtCaches c op)
      [(m, .write fun _ => v), (c, .alloc 8192 0)] := fun v =>
    Run.steps_cons.mpr ⟨⟨trivial, trivial⟩, Run.steps_cons.mpr
      ⟨⟨⟨by decide, by decide⟩, trivial⟩, Run.Steps.nil⟩⟩
  have hmem : (⟨p, 8192⟩ : Obj) ∈ (stores m fun _ => 0).live := by simp [stores, hl]
  obtain ⟨_, _, hback⟩ := routed_of_runs hA hT hb (hr 0) (hr 1)
    (.cons trivial (.cons ⟨rfl, rfl⟩ .nil)) (hop 0) (hop 1)
  obtain ⟨t₁, t₂, _, _, h₁, h₂, halike⟩ := hback _ hmem
    (stores_genuine hl hdvd (by decide) hmem) (stores_genuine hl hdvd (by decide) hmem)
  exact ⟨c, m, _, t₁, t₂, hb, hr 0, hr 1, h₁, h₂, halike⟩

/-! ## A forged header

A block of 8 KiB that begins with the address of `kvmalloc_caches[0]`, followed by the
count 1 and zeros, is freed as the last object of a slab of that cache.
-/

/-- The words of the forgery. -/
def forged (p x : Nat) : Nat :=
  if x = p then virtCaches else if x = p + 8 then 1 else 0

/-- A move ends with the header at the head of the other list. -/
theorem moveSlab_head (s : Heap β) (i h : Nat) (x y : SlabList) :
    (moveSlab s i h x y).head i y = h := by
  unfold moveSlab
  rw [Heap.head_setHead, if_pos ⟨rfl, rfl⟩]

/-- A move between lists frees no page. -/
theorem moveSlab_pages (s : Heap β) (i h : Nat) (x y : SlabList) :
    (moveSlab s i h x y).pages = s.pages := by
  unfold moveSlab
  dsimp only
  repeat' split
  all_goals rfl

/-- Freeing the forged block puts it on a list of slabs and keeps it from `kfree`. -/
theorem forged_free {n : Config State} {p : Nat} (hp : 4096 ∣ p) (hpos : 0 < p)
    (hmem : ∀ x < 8192, n.heap.mem (p + x) = forged p (p + x))
    (hsize : (n.heap.caches 0).alignedSize = 16) :
    ∃ t, kvmfree (buddy virt 0) virtCaches n.heap p = .done () t ∧ t.head 0 .listEmpty = p ∧
      t.pages = n.heap.pages := by
  have h0 := hmem 0 (by decide)
  have h8 := hmem 8 (by decide)
  simp only [forged, Nat.add_zero, if_true] at h0
  simp only [forged, Nat.add_eq_left, OfNat.ofNat_ne_zero, if_false, if_true] at h8
  have hcache : onSlabCache virtCaches (n.heap.parentCache p) = some 0 := by
    unfold Heap.parentCache
    rw [h0]
    exact onSlabCache_cacheAddr (i := 0) (by decide)
  have hcount : (pushSlot n.heap p p).activeObjCount p = 0 := by
    have h8' : (pushSlot n.heap p p).activeObjCount p = Bits.wrapSub (n.heap.mem (p + 8)) 1 := by
      simp [pushSlot, Heap.activeObjCount, Heap.setActiveObjCount, Heap.setFreeSlot, Heap.store]
    rw [h8', h8]
    decide
  have hfree : freeOnSlab n.heap 0 p p =
      moveSlab (pushSlot n.heap p p) 0 p .listPartial .listEmpty := by
    have hmax : (4096 - slabSize) / ((pushSlot n.heap p p).caches 0).alignedSize = 252 := by
      rw [show ((pushSlot n.heap p p).caches 0).alignedSize = 16 from hsize]
      decide
    unfold freeOnSlab
    simp only [hmax, hcount]
    rfl
  unfold kvmfree
  rw [if_neg (by omega), andNot_page hp]
  simp only [hcache, hfree]
  exact ⟨_, rfl, moveSlab_head _ _ _ _ _, moveSlab_pages _ _ _ _ _⟩

/-- One client stores zeros, the other a forged header; the block of the second does not go
back to the buddy allocator, and it ends up on a list of slabs. -/
theorem forged_misrouted : ∃ (c m d₁ d₂ : Config State) (p : Nat), 0 < p ∧
    Boot (Granted virt virtBssEnd) c ∧
    Run (step (buddy virt 0) virtCaches) c [(stores m fun _ => 0, .free p),
      (m, .write fun _ => 0), (c, .alloc 8192 0)] d₁ ∧
    Run (step (buddy virt 0) virtCaches) c [(stores m (forged p), .free p),
      (m, .write (forged p)), (c, .alloc 8192 0)] d₂ ∧
    (∃ o ∈ m.live, o.addr = p) ∧
    (buddy virt 0).kfree m.heap.pages p = .done () d₁.heap.pages ∧
    d₂.heap.pages = m.heap.pages ∧
    d₁.heap.head 0 .listEmpty = 0 ∧ d₂.heap.head 0 .listEmpty = p ∧
    ¬ Alike d₁.heap d₂.heap := by
  have hA := buddy_grants 0 Kalloc.virt_machine Kalloc.virt_fits
  have hT := buddy_takesBack 0 Kalloc.virt_machine
  obtain ⟨c, m, p, hb, hs, hl, hdvd, hpos⟩ := virt_block
  obtain ⟨_, _, L, hh⟩ := (hb.keeps virtCaches hA).onStep hA (fun _ _ _ _ => hT)
    (show Proper c (.alloc 8192 0) from ⟨by decide, by decide⟩) trivial hs
  have hmem : (⟨p, 8192⟩ : Obj) ∈ m.live := by simp [hl]
  -- with zeros stored the block goes to `kfree`
  obtain ⟨t₁, a₁, hrun₁, hfree₁, hf₁⟩ := kvmfree_spec (hh.write fun _ => 0) hmem (fun _ _ => hT)
    (stores_genuine hl hdvd (by decide) hmem)
  have hrouted := (hf₁.routed (hh.write fun _ => 0) hmem hfree₁).block 1 (by simp only; decide)
  -- with the forgery stored it goes to a list
  have hsize : ((stores m (forged p)).heap.caches 0).alignedSize = 16 :=
    (hh.rep.size 0 (by decide)).trans (by decide)
  obtain ⟨t₂, hrun₂, hhead₂, hpages₂⟩ := forged_free hdvd hpos
    (fun x hx => stores_mem hl (forged p) hx) hsize
  have hhead₁ : t₁.head 0 .listEmpty = 0 := by
    have hm : m.heap.head 0 .listEmpty = c.heap.head 0 .listEmpty := by
      obtain ⟨slot, hrun, _⟩ := step_alloc.mp hs
      have horder : orderFor 8192 = some 1 := by decide
      unfold kvmalloc at hrun
      rw [if_neg (by decide), if_neg (by decide), horder] at hrun
      obtain ⟨b, _, hb⟩ := Outcome.within_eq_done.mp hrun
      rw [← hb]
      rfl
    obtain ⟨_, s, _, _, hheap⟩ := hb
    have ht : t₁.head 0 .listEmpty = m.heap.head 0 .listEmpty := by
      unfold Heap.head
      rw [hrouted.2.2]
    rw [ht, hm, hheap]
    rfl
  refine ⟨c, m, ⟨t₁, []⟩, ⟨t₂, []⟩, p, hpos, hb, ((Run.nil.snoc hs).snoc rfl).snoc ?_,
    ((Run.nil.snoc hs).snoc rfl).snoc ?_, ⟨_, hmem, rfl⟩, hrouted.1, hpages₂, hhead₁, hhead₂,
    fun h => ?_⟩
  · exact step_free.mpr ⟨hrun₁, by simp [stores, hl]⟩
  · exact step_free.mpr ⟨hrun₂, by simp [stores, hl]⟩
  · have := h.heads 0 (by decide) .listEmpty
    simp only [hhead₁, hhead₂] at this
    omega

end RexOS.Kvmalloc
