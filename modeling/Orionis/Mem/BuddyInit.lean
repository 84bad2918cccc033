import Mathlib.Algebra.BigOperators.Ring.Finset
import Mathlib.Algebra.Order.BigOperators.Group.Finset
import Mathlib.Data.Nat.ModEq
import Mathlib.Order.Interval.Finset.Nat
import Orionis.Mem.BuddySteps

/-!
# The free lists `buddy_init` builds

Every region is cut greedily into the largest blocks that fit its rest and its alignment.
The blocks tile usable RAM, the managed pages add up to it, and a block below the top
order cannot be extended to its parent inside its region. When no two regions abut, the
last fact leaves no two free buddies.
-/

namespace Orionis.Mem

open Orionis.Foundations

/-! ## Sizes -/

/-- A run inside the first `n` numbers is as long as the counts of its numbers add up to. -/
private theorem sum_runExtent {first length n : ℕ} (h : first + length ≤ n) :
    ∑ x ∈ Finset.range n, (runExtent first length).1 x = length := by
  have hfilter : (Finset.range n).filter (fun x => first ≤ x ∧ x < first + length) =
      Finset.Ico first (first + length) := by
    ext x
    simp only [Finset.mem_filter, Finset.mem_range, Finset.mem_Ico]
    omega
  simp only [runExtent, ← Finset.card_filter, hfilter, Nat.card_Ico]
  omega

/-- Counted byte by byte, regions have the sum of their lengths. -/
private theorem sum_regionExtent {regions : List MmapEntry} {n : ℕ}
    (h : ∀ e ∈ regions, e.base + e.length ≤ n) :
    ∑ x ∈ Finset.range n, (regionExtent regions).1 x = (regionExtent regions).2 := by
  induction regions with
  | nil => simp [regionExtent]
  | cons e regions ih =>
    simp only [regionExtent_cons, Prod.fst_add, Prod.snd_add, Pi.add_apply, Finset.sum_add_distrib]
    rw [sum_runExtent (h e (by simp)), ih fun f hf => h f (by simp [hf])]
    rfl

/-- Usable RAM is at most the address space. -/
theorem StivaleMap.extent_size_le (map : StivaleMap) : map.extent.2 ≤ 2 ^ 64 := by
  have hinside : ∀ e ∈ map.regions, e.base + e.length ≤ 2 ^ 64 := by
    intro e he
    obtain ⟨hmem, huse⟩ := StivaleMap.mem_regions.1 he
    exact (map.top_lt e hmem huse).le
  have hsum : ∑ x ∈ Finset.range (2 ^ 64), map.extent.1 x ≤ ∑ _x ∈ Finset.range (2 ^ 64), 1 :=
    Finset.sum_le_sum fun x _ => map.extent_count_le_one x
  rw [StivaleMap.extent, sum_regionExtent hinside, Finset.sum_const_nat (m := 1) fun _ _ => rfl,
    Finset.card_range, Nat.mul_one] at hsum
  exact hsum

/-- The pages of a list of regions. -/
def regionPages (regions : List MmapEntry) : ℕ := (regions.map fun e => e.length / pageSize).sum

@[simp] theorem regionPages_cons (e : MmapEntry) (regions : List MmapEntry) :
    regionPages (e :: regions) = e.length / pageSize + regionPages regions := rfl

/-- Whole pages make up whole regions. -/
theorem regionPages_mul {regions : List MmapEntry} (h : ∀ e ∈ regions, pageSize ∣ e.length) :
    regionPages regions * pageSize = (regionExtent regions).2 := by
  induction regions with
  | nil => rfl
  | cons e regions ih =>
    rw [regionPages_cons, regionExtent_cons, Nat.add_mul, ih fun f hf => h f (by simp [hf]),
      Nat.div_mul_cancel (h e (by simp))]
    rfl

/-- The pages of the regions are all their bytes. -/
theorem StivaleMap.pages_mul (map : StivaleMap) :
    regionPages map.regions * pageSize = map.extent.2 := by
  apply regionPages_mul
  intro e he
  obtain ⟨hmem, huse⟩ := StivaleMap.mem_regions.1 he
  exact (map.aligned e hmem huse).2

/-- Their number does not wrap. -/
theorem StivaleMap.pages_lt (map : StivaleMap) : regionPages map.regions < 2 ^ 64 := by
  have hmul := map.pages_mul
  have hle := map.extent_size_le
  simp only [pageSize] at hmul
  omega

/-! ## Carving one region -/

/-- The chosen order fits the rest of the region and its alignment, and no larger one does. -/
theorem carveOrder_spec {current remaining : ℕ} (hcur : pageSize ∣ current)
    (hrem : pageSize ≤ remaining) (top : ℕ) (htop : minOrder ≤ top) :
    minOrder ≤ carveOrder current remaining top ∧ carveOrder current remaining top ≤ top ∧
      2 ^ carveOrder current remaining top ≤ remaining ∧
      2 ^ carveOrder current remaining top ∣ current ∧
      (carveOrder current remaining top < top →
        2 ^ (carveOrder current remaining top + 1) ∣ current →
        remaining < 2 ^ (carveOrder current remaining top + 1)) := by
  induction top with
  | zero => simp [minOrder] at htop
  | succ top ih =>
    rw [carveOrder]
    by_cases hfit : remaining < 2 ^ (top + 1) ∨ current % 2 ^ (top + 1) ≠ 0
    · rw [if_pos hfit]
      have hmin : minOrder ≤ top := by
        by_contra hlt
        have htop' : top + 1 = minOrder := by omega
        rw [htop'] at hfit
        cases hfit with
        | inl hsmall =>
          exact absurd hrem (not_le.2 hsmall)
        | inr hodd =>
          exact hodd (Nat.mod_eq_zero_of_dvd hcur)
      rw [if_neg (not_lt.2 hmin)]
      obtain ⟨hlo, hhi, hsize, hdvd, hmax⟩ := ih hmin
      refine ⟨hlo, by omega, hsize, hdvd, fun _ hdvd' => ?_⟩
      cases Nat.eq_or_lt_of_le hhi with
      | inl heq =>
        rw [heq] at hdvd' ⊢
        exact hfit.resolve_right (not_not.2 (Nat.mod_eq_zero_of_dvd hdvd'))
      | inr hlt =>
        exact hmax hlt hdvd'
    · rw [if_neg hfit]
      rw [not_or, not_lt, not_not] at hfit
      exact ⟨htop, le_rfl, hfit.1, Nat.dvd_of_mod_eq_zero hfit.2, fun h => absurd h (lt_irrefl _)⟩

/-- The block lies in the region from `first` to `last` and cannot be extended to the parent
it would be the lower half of. -/
def Greedy (first last : ℕ) (b : Block) : Prop :=
  first ≤ b.addr ∧ b.addr + 2 ^ b.order ≤ last ∧
    (b.order < maxOrder → 2 ^ (b.order + 1) ∣ b.addr → last < b.addr + 2 ^ (b.order + 1))

/-- A largest block stays one where the range begins earlier. -/
theorem Greedy.mono {first first' last : ℕ} {b : Block} (h : Greedy first last b)
    (hfirst : first' ≤ first) : Greedy first' last b :=
  ⟨hfirst.trans h.1, h.2⟩

variable {map : StivaleMap} {s : Buddy} {lists : ℕ → List ℕ} {rest : Extent}

/-- Carving the region adds greedy blocks until nothing of it is left. -/
theorem Tiled.carveRegion_spec {rounds current remaining : ℕ}
    (ht : Tiled map s lists (runExtent current remaining + rest)) (hcur : pageSize ∣ current)
    (hrem : pageSize ∣ remaining) (hrounds : remaining ≤ rounds * pageSize)
    (hend : current + remaining < 2 ^ 64)
    (hpages : s.buddyTotalManagedPages + remaining / pageSize < 2 ^ 64) :
    ∃ lists', Tiled map (carveRegion rounds current remaining s) lists' rest ∧
      (carveRegion rounds current remaining s).buddyTotalManagedPages =
        s.buddyTotalManagedPages + remaining / pageSize ∧
      (carveRegion rounds current remaining s).totalPhysicalPages = s.totalPhysicalPages ∧
      (carveRegion rounds current remaining s).buddyUsedPages = s.buddyUsedPages ∧
      ∀ b ∈ listedBlocks lists', b ∈ listedBlocks lists ∨ Greedy current (current + remaining) b := by
  induction rounds generalizing s lists current remaining with
  | zero =>
    obtain rfl : remaining = 0 := by omega
    rw [runExtent_zero, zero_add] at ht
    exact ⟨lists, ht, rfl, rfl, rfl, fun b => Or.inl⟩
  | succ rounds ih =>
    rw [carveRegion]
    by_cases hfit : pageSize ≤ remaining
    · rw [if_pos hfit]
      obtain ⟨hlo, hhi, hsize, hdvd, hmax⟩ := carveOrder_spec hcur hfit maxOrder (by decide)
      generalize carveOrder current remaining maxOrder = order at hlo hhi hsize hdvd hmax ⊢
      have hpageSize : pageSize ∣ 2 ^ order := pow_dvd_pow 2 hlo
      have hpage : pageSize ≤ 2 ^ order := Nat.le_of_dvd (Nat.two_pow_pos order) hpageSize
      have hsplit : remaining = 2 ^ order + (remaining - 2 ^ order) := by omega
      have hdiv : remaining / pageSize =
          2 ^ order / pageSize + (remaining - 2 ^ order) / pageSize := by
        rw [← Nat.add_div_of_dvd_right hpageSize, ← hsplit]
      have hblock : Tiled map s lists ((⟨current, order⟩ : Block).extent +
          (runExtent (current + 2 ^ order) (remaining - 2 ^ order) + rest)) := by
        rw [hsplit, runExtent_add, add_assoc] at ht
        exact ht
      have hinsert := hblock.insertBlock (b := ⟨current, order⟩) hdvd hlo hhi
      have hnext : (current + 2 ^ order) % 2 ^ 64 = current + 2 ^ order :=
        Nat.mod_eq_of_lt (by omega)
      have hcount : (s.buddyTotalManagedPages + 2 ^ order / pageSize) % 2 ^ 64 =
          s.buddyTotalManagedPages + 2 ^ order / pageSize := by
        have hle : 2 ^ order / pageSize ≤ remaining / pageSize := Nat.div_le_div_right hsize
        exact Nat.mod_eq_of_lt (by omega)
      simp only [if_neg (not_lt.2 hlo), hnext]
      have hcounted : Tiled map { s.insertBlock order current with
          buddyTotalManagedPages := (s.buddyTotalManagedPages + 2 ^ order / pageSize) % 2 ^ 64 }
          (Function.update lists order (current :: lists order))
          (runExtent (current + 2 ^ order) (remaining - 2 ^ order) + rest) :=
        hinsert.frame rfl fun _ _ _ _ => rfl
      obtain ⟨lists', htiled, hman, htot, hused, hgreedy⟩ := ih hcounted
        ((Nat.dvd_add_right hcur).2 hpageSize) (Nat.dvd_sub hrem hpageSize)
        (by simp only [pageSize] at *; omega) (by omega) (by simp only [hcount]; omega)
      refine ⟨lists', htiled, ?_, htot, hused, fun b hb => ?_⟩
      · refine hman.trans ?_
        simp only [hcount]
        omega
      · cases hgreedy b hb with
        | inl hb =>
          cases List.mem_cons.1 ((listedBlocks_cons lists current hlo hhi).mem_iff.1 hb) with
          | inl heq =>
            subst heq
            exact Or.inr ⟨le_rfl, by simp only; omega, fun hlt hdvd' => by
              have := hmax hlt hdvd'
              simp only at *
              omega⟩
          | inr hb =>
            exact Or.inl hb
        | inr hb =>
          refine Or.inr ⟨by have := hb.1; omega, by have := hb.2.1; omega, fun hlt hdvd' => ?_⟩
          have := hb.2.2 hlt hdvd'
          omega
    · rw [if_neg hfit]
      obtain rfl : remaining = 0 := Nat.eq_zero_of_dvd_of_lt hrem (by omega)
      rw [runExtent_zero, zero_add] at ht
      exact ⟨lists, ht, rfl, rfl, rfl, fun b => Or.inl⟩

/-! ## The whole map -/

/-- Carving the entries one after the other. -/
theorem Tiled.carveEntries_spec (entries : List MmapEntry)
    (hentries : ∀ e ∈ entries, e.Usable →
      pageSize ∣ e.base ∧ pageSize ∣ e.length ∧ e.base + e.length < 2 ^ 64)
    (ht : Tiled map s lists (regionExtent (entries.filter (·.Usable)) + rest))
    (hpages : s.buddyTotalManagedPages + regionPages (entries.filter (·.Usable)) < 2 ^ 64) :
    ∃ lists', Tiled map (entries.foldl carveEntry s) lists' rest ∧
      (entries.foldl carveEntry s).buddyTotalManagedPages =
        s.buddyTotalManagedPages + regionPages (entries.filter (·.Usable)) ∧
      (entries.foldl carveEntry s).totalPhysicalPages = s.totalPhysicalPages ∧
      (entries.foldl carveEntry s).buddyUsedPages = s.buddyUsedPages ∧
      ∀ b ∈ listedBlocks lists', b ∈ listedBlocks lists ∨
        ∃ e ∈ entries.filter (·.Usable), Greedy e.base (e.base + e.length) b := by
  induction entries generalizing s lists with
  | nil => exact ⟨lists, by simpa [regionExtent] using ht, rfl, rfl, rfl, fun b => Or.inl⟩
  | cons e entries ih =>
    have hrest : ∀ f ∈ entries, f.Usable →
        pageSize ∣ f.base ∧ pageSize ∣ f.length ∧ f.base + f.length < 2 ^ 64 :=
      fun f hf => hentries f (List.mem_cons_of_mem _ hf)
    rw [List.foldl_cons]
    by_cases huse : e.Usable
    · obtain ⟨hbase, hlength, htop⟩ := hentries e (by simp) huse
      rw [List.filter_cons_of_pos (by simpa using huse), regionPages_cons] at *
      rw [regionExtent_cons, add_assoc] at ht
      have hstep : carveEntry s e = carveRegion (e.length / pageSize) e.base e.length s :=
        if_neg (not_not.2 huse)
      obtain ⟨lists₁, ht₁, hman₁, htot₁, hused₁, hgreedy₁⟩ := ht.carveRegion_spec hbase hlength
        (Nat.div_mul_cancel hlength).ge htop (by omega)
      rw [← hstep] at ht₁ hman₁ htot₁ hused₁
      obtain ⟨lists', ht', hman, htot, hused, hgreedy⟩ := ih hrest ht₁ (by omega)
      refine ⟨lists', ht', by omega, htot.trans htot₁, hused.trans hused₁, fun b hb => ?_⟩
      rcases hgreedy b hb with hb | ⟨f, hf, hb⟩
      · exact (hgreedy₁ b hb).imp_right fun h => ⟨e, by simp, h⟩
      · exact Or.inr ⟨f, List.mem_cons_of_mem _ hf, hb⟩
    · rw [List.filter_cons_of_neg (by simpa using huse)] at *
      rw [show carveEntry s e = s from if_pos huse]
      exact ih hrest ht hpages

/-- The loop over the entries adds up the pages of the regions. -/
private theorem foldl_pages (entries : List MmapEntry) (total : ℕ)
    (h : total + regionPages (entries.filter (·.Usable)) < 2 ^ 64) :
    entries.foldl (fun total e =>
        if e.type = 1 then (total + e.length / pageSize) % 2 ^ 64 else total) total =
      total + regionPages (entries.filter (·.Usable)) := by
  induction entries generalizing total with
  | nil => rfl
  | cons e entries ih =>
    rw [List.foldl_cons]
    by_cases huse : e.Usable
    · rw [List.filter_cons_of_pos (by simpa using huse), regionPages_cons] at *
      rw [if_pos (show e.type = 1 from huse), Nat.mod_eq_of_lt (by omega), ih _ (by omega), Nat.add_assoc]
    · rw [List.filter_cons_of_neg (by simpa using huse)] at *
      rw [if_neg (show e.type ≠ 1 from huse), ih _ h]

/-- The state after `buddy_init`: the lists tile usable RAM with greedy blocks, both page
totals count it, and nothing is used. -/
theorem buddyInit_tiled (map : StivaleMap) (s : Buddy) :
    ∃ lists, Tiled map (buddyInit s map.entries) lists 0 ∧
      (buddyInit s map.entries).buddyTotalManagedPages = regionPages map.regions ∧
      (buddyInit s map.entries).totalPhysicalPages = regionPages map.regions ∧
      (buddyInit s map.entries).buddyUsedPages = 0 ∧
      ∀ b ∈ listedBlocks lists, ∃ e ∈ map.regions, Greedy e.base (e.base + e.length) b := by
  have hempty : listedBlocks (fun _ => []) = [] := by simp [listedBlocks]
  have htotal : countPhysicalPages map.entries = regionPages map.regions := by
    rw [countPhysicalPages, foldl_pages _ _ (by simpa [StivaleMap.regions] using map.pages_lt),
      Nat.zero_add, StivaleMap.regions]
  have hstart : Tiled map { s with
      freeList := fun _ => 0
      totalPhysicalPages := countPhysicalPages map.entries
      buddyUsedPages := 0
      buddyTotalManagedPages := 0 } (fun _ => []) (regionExtent map.regions + 0) := by
    refine ⟨fun _ _ _ => rfl, ?_, ?_⟩ <;> simp [hempty, StivaleMap.extent]
  have hentries : ∀ e ∈ map.entries, e.Usable →
      pageSize ∣ e.base ∧ pageSize ∣ e.length ∧ e.base + e.length < 2 ^ 64 :=
    fun e he huse => ⟨(map.aligned e he huse).1, (map.aligned e he huse).2, map.top_lt e he huse⟩
  obtain ⟨lists, ht, hman, htot, hused, hgreedy⟩ := hstart.carveEntries_spec map.entries hentries
    (by simpa [StivaleMap.regions] using map.pages_lt)
  refine ⟨lists, ht, hman.trans (Nat.zero_add _), htot.trans htotal, hused, fun b hb => ?_⟩
  exact (hgreedy b hb).resolve_left (by simp [hempty])

/-! ## No two buddies -/

/-- No usable region ends where another one starts. -/
def StivaleMap.NoAbutting (map : StivaleMap) : Prop :=
  ∀ e ∈ map.regions, ∀ f ∈ map.regions, 0 < e.length → 0 < f.length → e.base + e.length ≠ f.base

instance (map : StivaleMap) : Decidable map.NoAbutting :=
  inferInstanceAs (Decidable (∀ e ∈ map.regions, ∀ f ∈ map.regions,
    0 < e.length → 0 < f.length → e.base + e.length ≠ f.base))

/-- The lower of two adjacent greedy blocks ends its region, so the upper one would lie in a
region that starts right there. -/
private theorem not_greedy_upper (hmap : map.NoAbutting) {e f : MmapEntry} (he : e ∈ map.regions)
    (hf : f ∈ map.regions) {b c : Block} (horder : b.order < maxOrder)
    (hdvd : 2 ^ (b.order + 1) ∣ b.addr) (hc : c.addr = b.addr + 2 ^ b.order)
    (hcb : c.order = b.order) (hlower : Greedy e.base (e.base + e.length) b) :
    ¬ Greedy f.base (f.base + f.length) c := by
  intro hupper
  obtain ⟨he₁, he₂, he₃⟩ := hlower
  obtain ⟨hf₁, hf₂, -⟩ := hupper
  have hend := he₃ horder hdvd
  have hpos := Nat.two_pow_pos b.order
  rw [pow_succ] at hend
  rw [hcb] at hf₂
  have hne : e ≠ f := by
    intro heq
    subst heq
    omega
  have : Std.Symm fun e f : MmapEntry => Disjoint e.bytes f.bytes := ⟨fun _ _ h => h.symm⟩
  have hdisj := Set.disjoint_left.1 (map.disjoint.forall he hf hne)
  have hlast := hdisj (a := c.addr)
  have hfirst := hdisj (a := c.addr - 1)
  have habut := hmap e he f hf (by omega) (by omega)
  simp only [MmapEntry.mem_bytes] at hlast hfirst
  omega

/-- Greedy blocks of a map without abutting regions contain no two buddies. -/
theorem noFreeBuddies_of_greedy (hmap : map.NoAbutting) (ht : Tiled map s lists rest)
    (hgreedy : ∀ b ∈ listedBlocks lists, ∃ e ∈ map.regions, Greedy e.base (e.base + e.length) b) :
    NoFreeBuddies lists := by
  intro b hb horder hbuddy
  obtain ⟨e, he, hbe⟩ := hgreedy _ hb
  obtain ⟨f, hf, hbf⟩ := hgreedy _ hbuddy
  rcases Block.parent_cases (ht.aligned _ hb) with ⟨-, haddr, hdvd⟩ | ⟨-, haddr, hdvd⟩
  · exact not_greedy_upper hmap he hf horder hdvd haddr rfl hbe hbf
  · exact not_greedy_upper (b := b.buddy) hmap hf he horder hdvd haddr rfl hbf hbe

end Orionis.Mem
