import Orionis.Mem.Bitmap

/-!
# What `init_pmm` leaves in the bitmap

One lemma for each of its loops. Together they say that a page below the top is clear
exactly when it is usable and holds no byte of the bitmap.
-/

namespace Orionis.Mem

open Orionis.Foundations

namespace Pmm

/-- A page the allocator may hand out. -/
def Clear (s : Pmm) (page : ℕ) : Prop := page < s.totalPages ∧ ¬ s.bitmapTest page

/-- Only the bits differ. -/
def SameTable (s t : Pmm) : Prop :=
  t.pmmBitmap = s.pmmBitmap ∧ t.totalPages = s.totalPages ∧ t.lastCheckedPage = s.lastCheckedPage

variable {s t u : Pmm} {page p : ℕ}

/-- Nothing differs. -/
theorem SameTable.refl (s : Pmm) : s.SameTable s := ⟨rfl, rfl, rfl⟩

/-- Changes of bits one after the other. -/
theorem SameTable.trans (h : s.SameTable t) (h' : t.SameTable u) : s.SameTable u :=
  ⟨h'.1.trans h.1, h'.2.1.trans h.2.1, h'.2.2.trans h.2.2⟩

/-- Setting a bit changes nothing else. -/
theorem sameTable_bitmapSet (s : Pmm) (page : ℕ) : s.SameTable (s.bitmapSet page) := ⟨rfl, rfl, rfl⟩

/-- So does clearing one. -/
theorem sameTable_bitmapClear (s : Pmm) (page : ℕ) : s.SameTable (s.bitmapClear page) :=
  ⟨rfl, rfl, rfl⟩

@[simp] theorem bitmapTest_bitmapSet : (s.bitmapSet page).bitmapTest p ↔ p = page ∨ s.bitmapTest p := by
  simp [bitmapTest, bitmapSet]

@[simp] theorem bitmapTest_bitmapClear :
    (s.bitmapClear page).bitmapTest p ↔ p ≠ page ∧ s.bitmapTest p := by
  simp [bitmapTest, bitmapClear]

end Pmm

/-! ## The loops -/

/-- Filling sets every bit of the bitmap. -/
theorem fillBitmap_spec (size : ℕ) (s : Pmm) :
    s.SameTable (fillBitmap size s) ∧ ∀ p, p / 8 < size → (fillBitmap size s).bitmapTest p := by
  -- the bytes filled so far are `0xFF`, and stay so
  have hones : s.SameTable (fillBitmap size s) ∧
      ∀ i < size, (fillBitmap size s).mem (s.pmmBitmap + i) = 0xFF := by
    induction size with
    | zero => exact ⟨.refl s, fun i hi => absurd hi (Nat.not_lt_zero i)⟩
    | succ size ih =>
      obtain ⟨htable, hold⟩ := ih
      rw [fillBitmap, List.range_succ, List.foldl_append]
      refine ⟨htable.trans ⟨rfl, rfl, rfl⟩, ?_⟩
      intro i hi
      change Function.update (fillBitmap size s).mem ((fillBitmap size s).pmmBitmap + size) 0xFF _ = _
      rw [htable.1]
      by_cases hlast : i = size
      · rw [hlast, Function.update_self]
      · rw [Function.update_of_ne (by omega)]
        exact hold i (by omega)
  obtain ⟨htable, hones⟩ := hones
  refine ⟨htable, ?_⟩
  intro p hp
  apply testBit_of_ones
  rw [htable.1]
  exact hones _ hp

/-- Clearing the pages of an entry. -/
theorem clearEntry_spec (s : Pmm) (e : MmapEntry) :
    s.SameTable (clearEntry s e) ∧ ∀ p, (clearEntry s e).bitmapTest p ↔
      ¬ (e.Usable ∧ e.base / pageSize ≤ p ∧ p < e.base / pageSize + e.length / pageSize) ∧
        s.bitmapTest p := by
  by_cases huse : e.type = 1
  · have hrange (count : ℕ) :
        let t := (List.range count).foldl (fun s j => s.bitmapClear (e.base / pageSize + j)) s
        s.SameTable t ∧ ∀ p, t.bitmapTest p ↔
          ¬ (e.base / pageSize ≤ p ∧ p < e.base / pageSize + count) ∧ s.bitmapTest p := by
      induction count with
      | zero =>
        refine ⟨.refl s, fun p => ?_⟩
        change s.bitmapTest p ↔ _
        rw [and_iff_right (by omega)]
      | succ count ih =>
        obtain ⟨htable, htest⟩ := ih
        rw [List.range_succ, List.foldl_append]
        refine ⟨htable.trans (Pmm.sameTable_bitmapClear _ _), fun p => ?_⟩
        rw [List.foldl_cons, List.foldl_nil, Pmm.bitmapTest_bitmapClear, htest]
        grind
    rw [clearEntry, if_pos huse]
    simpa only [MmapEntry.Usable, huse, true_and] using hrange (e.length / pageSize)
  · rw [clearEntry, if_neg huse]
    refine ⟨.refl s, fun p => ?_⟩
    simp [MmapEntry.Usable, huse]

/-- Clearing the pages of all usable entries. -/
theorem clearEntries_spec (s : Pmm) (entries : List MmapEntry) :
    s.SameTable (entries.foldl clearEntry s) ∧ ∀ p, (entries.foldl clearEntry s).bitmapTest p ↔
      (∀ e ∈ entries, ¬ (e.Usable ∧ e.base / pageSize ≤ p ∧
        p < e.base / pageSize + e.length / pageSize)) ∧ s.bitmapTest p := by
  induction entries generalizing s with
  | nil => exact ⟨.refl s, fun p => by simp⟩
  | cons e entries ih =>
    obtain ⟨hfirst, htest⟩ := clearEntry_spec s e
    obtain ⟨hrest, htests⟩ := ih (clearEntry s e)
    refine ⟨hfirst.trans hrest, fun p => ?_⟩
    rw [List.foldl_cons, htests, htest, List.forall_mem_cons]
    tauto

/-- Taking the pages of the bitmap itself. -/
theorem reserveBitmap_spec (count : ℕ) (s : Pmm) :
    s.SameTable (reserveBitmap count s) ∧ ∀ p, (reserveBitmap count s).bitmapTest p ↔
      (s.pmmBitmap / pageSize ≤ p ∧ p < s.pmmBitmap / pageSize + count) ∨ s.bitmapTest p := by
  induction count with
  | zero =>
    refine ⟨.refl s, fun p => ?_⟩
    change s.bitmapTest p ↔ _
    rw [or_iff_right (by omega)]
  | succ count ih =>
    obtain ⟨htable, htest⟩ := ih
    rw [reserveBitmap, List.range_succ, List.foldl_append]
    refine ⟨htable.trans (Pmm.sameTable_bitmapSet _ _), fun p => ?_⟩
    change ((reserveBitmap count s).bitmapSet ((reserveBitmap count s).pmmBitmap / pageSize +
      count)).bitmapTest p ↔ _
    rw [Pmm.bitmapTest_bitmapSet, htest, htable.1]
    grind

/-- The highest end bounds every usable entry, where none of them wraps around. -/
theorem le_highestAddr_of_lt {entries : List MmapEntry}
    (htop : ∀ f ∈ entries, f.Usable → f.base + f.length < 2 ^ 64) {e : MmapEntry}
    (he : e ∈ entries) (huse : e.Usable) : e.base + e.length ≤ highestAddr entries := by
  have hfold (entries : List MmapEntry) (start : ℕ)
      (htop : ∀ f ∈ entries, f.Usable → f.base + f.length < 2 ^ 64) :
      let highest := entries.foldl (fun highest e =>
        if e.type = 1 then
          let top := (e.base + e.length) % 2 ^ 64
          if highest < top then top else highest
        else highest) start
      start ≤ highest ∧ ∀ f ∈ entries, f.Usable → f.base + f.length ≤ highest := by
    induction entries generalizing start with
    | nil => simp
    | cons f entries ih =>
      obtain ⟨hf, htail⟩ := List.forall_mem_cons.1 htop
      rw [List.foldl_cons]
      obtain ⟨hstart, hrest⟩ := ih (if f.type = 1 then
        if start < (f.base + f.length) % 2 ^ 64 then (f.base + f.length) % 2 ^ 64 else start
        else start) htail
      by_cases huse : f.type = 1
      · have hmod := Nat.mod_eq_of_lt (hf huse)
        simp only [if_pos huse, hmod] at hstart hrest ⊢
        have hboth : start ≤ (if start < f.base + f.length then f.base + f.length else start) ∧
            f.base + f.length ≤ if start < f.base + f.length then f.base + f.length else start := by
          split <;> omega
        exact ⟨hboth.1.trans hstart,
          List.forall_mem_cons.2 ⟨fun _ => hboth.2.trans hstart, hrest⟩⟩
      · simp only [if_neg huse] at hstart hrest ⊢
        exact ⟨hstart, List.forall_mem_cons.2 ⟨fun h => absurd h huse, hrest⟩⟩
  exact (hfold entries 0 htop).2 e he huse

/-- No region ends above the highest address. -/
theorem le_highestAddr (map : StivaleMap) {e : MmapEntry} (he : e ∈ map.regions) :
    e.base + e.length ≤ highestAddr map.entries := by
  obtain ⟨hmem, huse⟩ := StivaleMap.mem_regions.1 he
  exact le_highestAddr_of_lt map.top_lt hmem huse

/-- The second loop finds a place, where there is one. -/
theorem placeBitmap_of_room {entries : List MmapEntry} {size : ℕ} (old : ℕ)
    (hroom : ∃ e ∈ entries, e.Usable ∧ size ≤ e.length) :
    ∃ e ∈ entries, e.Usable ∧ size ≤ e.length ∧ placeBitmap entries size old = e.base := by
  obtain ⟨f, hf, huse, hfits⟩ := hroom
  rw [placeBitmap]
  cases hfind : entries.find? fun e => e.type = 1 ∧ size ≤ e.length with
  | none =>
    have hnone := List.find?_eq_none.1 hfind f hf
    exact absurd (decide_eq_true (show f.type = 1 ∧ size ≤ f.length from ⟨huse, hfits⟩)) hnone
  | some e =>
    have hsome : e.type = 1 ∧ size ≤ e.length := by simpa using List.find?_some hfind
    exact ⟨e, List.mem_of_find?_eq_some hfind, hsome.1, hsome.2, rfl⟩

/-! ## The bitmap after `init_pmm` -/

/-- The size `init_pmm` computes for the bitmap. -/
def StivaleMap.bitmapSize (map : StivaleMap) : ℕ := bitmapBytes (highestAddr map.entries / pageSize)

/-- Every page below the top has a bit in the bitmap. -/
theorem lt_bitmapBytes {pages p : ℕ} (hp : p < pages) : p / 8 < bitmapBytes pages := by
  simp only [bitmapBytes]
  split_ifs <;> omega

/-- A page is one of those a page-aligned range of bytes takes just if it holds one of
these bytes. -/
theorem mem_bitmapPages {base size p : ℕ} (hbase : pageSize ∣ base) :
    (base / pageSize ≤ p ∧ p < base / pageSize + bitmapPages size) ↔
      ∃ x, base ≤ x ∧ x < base + size ∧ x / pageSize = p := by
  obtain ⟨b, rfl⟩ := hbase
  have hcount : size ≤ pageSize * bitmapPages size ∧
      pageSize * bitmapPages size < size + pageSize := by
    by_cases hrem : size % pageSize = 0
    · rw [bitmapPages, if_neg (not_not.2 hrem)]
      simp only [pageSize] at *
      omega
    · rw [bitmapPages, if_pos hrem]
      simp only [pageSize] at *
      omega
  generalize bitmapPages size = count at hcount
  simp only [pageSize] at *
  constructor
  · intro h
    exact ⟨4096 * p, by omega, by omega, by omega⟩
  · intro ⟨x, hlo, hhi, hx⟩
    omega

/-- Pages of a page-aligned region are the pages of its bytes. -/
theorem StivaleMap.mem_pages_iff {map : StivaleMap} {p : ℕ} :
    (∃ e ∈ map.entries, e.Usable ∧ e.base / pageSize ≤ p ∧
      p < e.base / pageSize + e.length / pageSize) ↔ p * pageSize ∈ map.usable := by
  have hpages {e : MmapEntry} (he : e ∈ map.entries) (huse : e.Usable) :
      (e.base / pageSize ≤ p ∧ p < e.base / pageSize + e.length / pageSize) ↔
        p * pageSize ∈ e.bytes := by
    obtain ⟨⟨b, hb⟩, ⟨l, hl⟩⟩ := map.aligned e he huse
    rw [MmapEntry.mem_bytes, hb, hl]
    simp only [pageSize]
    omega
  constructor
  · intro ⟨e, he, huse, hp⟩
    exact ⟨e, StivaleMap.mem_regions.2 ⟨he, huse⟩, (hpages he huse).1 hp⟩
  · intro ⟨e, he, hp⟩
    obtain ⟨hmem, huse⟩ := StivaleMap.mem_regions.1 he
    exact ⟨e, hmem, huse, (hpages hmem huse).2 hp⟩

/-- Every usable address is in a page below the top. -/
theorem StivaleMap.page_lt_top {map : StivaleMap} {x : ℕ} (hx : x ∈ map.usable) :
    x / pageSize < highestAddr map.entries / pageSize := by
  obtain ⟨e, he, hxe⟩ := hx
  obtain ⟨hmem, huse⟩ := StivaleMap.mem_regions.1 he
  obtain ⟨hbase, hlength⟩ := map.aligned e hmem huse
  obtain ⟨last, hlast⟩ := Nat.dvd_add hbase hlength
  have htop := le_highestAddr map he
  have hbelow := (MmapEntry.mem_bytes.1 hxe).2
  calc x / pageSize < last := Nat.div_lt_of_lt_mul (hlast ▸ hbelow)
    _ = pageSize * last / pageSize := (Nat.mul_div_cancel_left last (by decide)).symm
    _ ≤ highestAddr map.entries / pageSize := Nat.div_le_div_right (hlast ▸ htop)

/-- The state after `init_pmm`: the bitmap lies at the start of a usable region that has
room for it, and its clear bits are the usable pages that hold none of its bytes. -/
structure Pmm.Initialised (map : StivaleMap) (s : Pmm) : Prop where
  totalPages : s.totalPages = highestAddr map.entries / pageSize
  usable_lt : ∀ x ∈ map.usable, x / pageSize < s.totalPages
  placed : ∃ e ∈ map.regions, s.pmmBitmap = e.base ∧ map.bitmapSize ≤ e.length
  clear_iff : ∀ p < s.totalPages, ¬ s.bitmapTest p ↔ p * pageSize ∈ map.usable ∧
    ∀ x, s.pmmBitmap ≤ x → x < s.pmmBitmap + map.bitmapSize → x / pageSize ≠ p

/-- The four loops together, wherever the bitmap is placed. -/
theorem initPmm_loops (map : StivaleMap) (s : Pmm) :
    let t := initPmm s map.entries
    t.pmmBitmap = placeBitmap map.entries map.bitmapSize s.pmmBitmap ∧
      t.totalPages = highestAddr map.entries / pageSize ∧
      t.lastCheckedPage = s.lastCheckedPage ∧
      ∀ p < t.totalPages, t.bitmapTest p ↔
        (t.pmmBitmap / pageSize ≤ p ∧ p < t.pmmBitmap / pageSize + bitmapPages map.bitmapSize) ∨
          ¬ p * pageSize ∈ map.usable := by
  let s₀ : Pmm := { s with
    totalPages := highestAddr map.entries / pageSize
    pmmBitmap := placeBitmap map.entries map.bitmapSize s.pmmBitmap }
  obtain ⟨hfill, hones⟩ := fillBitmap_spec map.bitmapSize s₀
  obtain ⟨hclear, hcleared⟩ := clearEntries_spec (fillBitmap map.bitmapSize s₀) map.entries
  obtain ⟨hreserve, hreserved⟩ := reserveBitmap_spec (bitmapPages map.bitmapSize)
    (map.entries.foldl clearEntry (fillBitmap map.bitmapSize s₀))
  obtain ⟨hbitmap, htotal, hcursor⟩ := (hfill.trans hclear).trans hreserve
  change (initPmm s map.entries).pmmBitmap = _ at hbitmap
  change (initPmm s map.entries).totalPages = _ at htotal
  change (initPmm s map.entries).lastCheckedPage = _ at hcursor
  refine ⟨hbitmap, htotal, hcursor, ?_⟩
  intro p hp
  rw [htotal] at hp
  have htest := hreserved p
  change (initPmm s map.entries).bitmapTest p ↔ _ at htest
  rw [(hfill.trans hclear).1, hcleared, and_iff_left (hones p (lt_bitmapBytes hp))] at htest
  rw [htest, hbitmap, ← StivaleMap.mem_pages_iff]
  push Not
  exact Iff.rfl

/-- Given room for the bitmap, `init_pmm` sets it up, and keeps the scan cursor. -/
theorem initPmm_spec (map : StivaleMap) (s : Pmm)
    (hroom : ∃ e ∈ map.regions, map.bitmapSize ≤ e.length) :
    (initPmm s map.entries).Initialised map ∧
      (initPmm s map.entries).lastCheckedPage = s.lastCheckedPage := by
  obtain ⟨f, hf, hfits⟩ := hroom
  obtain ⟨hfmem, hfuse⟩ := StivaleMap.mem_regions.1 hf
  obtain ⟨e, hmem, huse, hfits, hplace⟩ :=
    placeBitmap_of_room s.pmmBitmap ⟨f, hfmem, hfuse, hfits⟩
  have he : e ∈ map.regions := StivaleMap.mem_regions.2 ⟨hmem, huse⟩
  obtain ⟨hbitmap, htotal, hcursor, htest⟩ := initPmm_loops map s
  refine ⟨⟨htotal, fun x hx => htotal ▸ StivaleMap.page_lt_top hx,
    ⟨e, he, hbitmap.trans hplace, hfits⟩, ?_⟩, hcursor⟩
  intro p hp
  have hbase : pageSize ∣ (initPmm s map.entries).pmmBitmap := by
    rw [hbitmap, hplace]
    exact (map.aligned e hmem huse).1
  rw [htest p hp, mem_bitmapPages hbase, not_or, not_not, and_comm]
  push Not
  exact Iff.rfl

end Orionis.Mem
