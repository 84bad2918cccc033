import Mathlib.Data.Finset.Card
import Mathlib.Data.Finset.Range
import Orionis.Foundations.Run
import Orionis.Mem.BitmapInit

/-!
# Runs of the bitmap allocator and its clients

The bits that `init_pmm` left clear are shared out between the allocator and its clients: in
every state reached a bit is set if it was set then or if a client holds its page. Nothing
else decides what an allocation returns or what the page count is.
-/

namespace Orionis.Mem

open Orionis.Foundations

/-! ## Single calls -/

section Calls

variable {s : Pmm}

/-- The scan finds the first clear bit of its range, or there is none. -/
theorem scanClear_spec (s : Pmm) (count i : ℕ) :
    (∃ j, i ≤ j ∧ j < i + count ∧ ¬ s.bitmapTest j ∧ scanClear s count i = some j) ∨
      ((∀ j, i ≤ j → j < i + count → s.bitmapTest j) ∧ scanClear s count i = none) := by
  induction count generalizing i with
  | zero => exact Or.inr ⟨fun j _ _ => by omega, rfl⟩
  | succ count ih =>
    rw [scanClear]
    by_cases hi : s.bitmapTest i
    · rw [if_neg (not_not.2 hi)]
      rcases ih (i + 1) with ⟨j, hij, hj, hclear, heq⟩ | ⟨hset, heq⟩
      · exact Or.inl ⟨j, by omega, by omega, hclear, heq⟩
      · refine Or.inr ⟨fun j hij hj => ?_, heq⟩
        by_cases hfirst : j = i
        · rw [hfirst]
          exact hi
        · exact hset j (by omega) (by omega)
    · exact Or.inl ⟨i, le_rfl, by omega, hi, if_pos hi⟩

/-- An allocation takes some clear page and sets its bit, or no page is clear. -/
theorem pmmAllocPage_cases (hcursor : s.lastCheckedPage ≤ s.totalPages) :
    (∃ p, s.Clear p ∧
        pmmAllocPage s = (p * pageSize, { s.bitmapSet p with lastCheckedPage := p + 1 })) ∨
      ((∀ p, ¬ s.Clear p) ∧ pmmAllocPage s = (0, s)) := by
  rw [pmmAllocPage]
  rcases scanClear_spec s (s.totalPages - s.lastCheckedPage) s.lastCheckedPage with
    ⟨p, -, hp, hclear, heq⟩ | ⟨hupper, heq⟩
  · exact Or.inl ⟨p, ⟨by omega, hclear⟩, by rw [heq]⟩
  · rw [heq]
    rcases scanClear_spec s s.lastCheckedPage 0 with ⟨p, -, hp, hclear, heq⟩ | ⟨hlower, heq⟩
    · exact Or.inl ⟨p, ⟨by omega, hclear⟩, by rw [heq]⟩
    · refine Or.inr ⟨?_, by rw [heq]⟩
      intro p ⟨hp, hclear⟩
      by_cases hside : p < s.lastCheckedPage
      · exact hclear (hlower p (Nat.zero_le p) (by omega))
      · exact hclear (hupper p (by omega) (by omega))

/-- Freeing a page clears its bit and keeps the cursor in range. -/
theorem pmmFreePage_spec (hcursor : s.lastCheckedPage ≤ s.totalPages) {page : ℕ} (hpage : page ≠ 0) :
    let t := pmmFreePage s page
    t.pmmBitmap = s.pmmBitmap ∧ t.totalPages = s.totalPages ∧ t.lastCheckedPage ≤ s.totalPages ∧
      ∀ p, t.bitmapTest p ↔ p ≠ page / pageSize ∧ s.bitmapTest p := by
  rw [pmmFreePage, if_neg hpage]
  simp only
  split
  · next hlt =>
    exact ⟨rfl, rfl, (Nat.le_of_lt hlt).trans hcursor, fun p => Pmm.bitmapTest_bitmapClear⟩
  · exact ⟨rfl, rfl, hcursor, fun p => Pmm.bitmapTest_bitmapClear⟩

/-- The page count counts the set bits. -/
theorem pmmGetUsedPages_eq (s : Pmm) :
    pmmGetUsedPages s = ((Finset.range s.totalPages).filter fun p => s.bitmapTest p).card := by
  rw [pmmGetUsedPages]
  generalize s.totalPages = total
  induction total with
  | zero => rfl
  | succ total ih =>
    rw [List.range_succ, List.foldl_append, List.foldl_cons, List.foldl_nil, ih,
      Finset.range_add_one, Finset.filter_insert]
    split
    · rw [Finset.card_insert_of_notMem (by simp)]
    · rfl

end Calls

/-! ## Runs -/

/-- The allocator and the addresses of the pages outstanding. -/
structure Pages where
  pmm : Pmm
  out : List ℕ

/-- What a client can do. -/
inductive PageCall
  | alloc
  | free (page : ℕ)
  | write (x : ℕ) (value : UInt8)

/-- One call of a client: clients free and write only pages they hold. -/
inductive PageStep : Pages → PageCall → Pages → Prop
  | alloc {h : Pages} {page : ℕ} {s : Pmm} (hcall : pmmAllocPage h.pmm = (page, s)) :
      PageStep h .alloc ⟨s, if page = 0 then h.out else page :: h.out⟩
  | free {h : Pages} {page : ℕ} (hheld : page ∈ h.out) :
      PageStep h (.free page) ⟨pmmFreePage h.pmm page, h.out.erase page⟩
  | write {h : Pages} {x : ℕ} {value : UInt8}
      (hheld : ∃ page ∈ h.out, page ≤ x ∧ x < page + pageSize) :
      PageStep h (.write x value)
        ⟨{ h.pmm with mem := Function.update h.pmm.mem x value }, h.out⟩

/-- The globals as the kernel image initialises them, with memory as it is found. -/
def Pmm.boot (mem : Memory) : Pmm := ⟨mem, 0, 0, 0⟩

/-- The state `init_pmm` leaves. -/
def Pages.start (map : StivaleMap) (mem : Memory) : Pages := ⟨initPmm (Pmm.boot mem) map.entries, []⟩

/-- What holds in every state reached from the initialised bitmap `init`: bits are set as
they were then or because a client holds the page. -/
structure Pages.Inv (init : Pmm) (h : Pages) : Prop where
  bitmap : h.pmm.pmmBitmap = init.pmmBitmap
  total : h.pmm.totalPages = init.totalPages
  cursor : h.pmm.lastCheckedPage ≤ h.pmm.totalPages
  test : ∀ p < init.totalPages, h.pmm.bitmapTest p ↔ init.bitmapTest p ∨ p * pageSize ∈ h.out
  held : ∀ page ∈ h.out, ∃ p, page = p * pageSize ∧ init.Clear p
  nodup : h.out.Nodup

section Steps

variable {map : StivaleMap} {init : Pmm} {h : Pages}

/-- Pages are told apart by their addresses. -/
private theorem page_inj {p q : ℕ} : p * pageSize = q * pageSize ↔ p = q :=
  ⟨Nat.eq_of_mul_eq_mul_right (by decide), fun h => by rw [h]⟩

/-- Page zero is never clear, and clear pages hold no byte of the bitmap. -/
theorem Pmm.Initialised.clear_facts (hinit : init.Initialised map) {p : ℕ} (hp : init.Clear p) :
    p ≠ 0 ∧ ∀ x, init.pmmBitmap ≤ x → x < init.pmmBitmap + map.bitmapSize → x / pageSize ≠ p := by
  obtain ⟨huse, hoff⟩ := (hinit.clear_iff p hp.1).1 hp.2
  refine ⟨?_, hoff⟩
  intro heq
  subst heq
  have hlow := (StivaleMap.bounds_of_mem_usable huse).1
  simp [pageSize] at hlow

/-- A page is clear when it was at the start and is not handed out. -/
theorem Pages.Inv.clear_iff (hi : h.Inv init) {p : ℕ} :
    h.pmm.Clear p ↔ init.Clear p ∧ p * pageSize ∉ h.out := by
  rw [Pmm.Clear, Pmm.Clear, hi.total, and_assoc]
  apply and_congr_right
  intro hp
  rw [hi.test p hp, not_or]

/-- At the start nothing is handed out. -/
theorem Pages.inv_start (hcursor : init.lastCheckedPage ≤ init.totalPages) :
    (⟨init, []⟩ : Pages).Inv init :=
  ⟨rfl, rfl, hcursor, by simp, by simp, List.nodup_nil⟩

/-- An allocation keeps the invariant. -/
theorem Pages.Inv.alloc (hinit : init.Initialised map) (hi : h.Inv init) {page : ℕ} {s : Pmm}
    (hcall : pmmAllocPage h.pmm = (page, s)) :
    (⟨s, if page = 0 then h.out else page :: h.out⟩ : Pages).Inv init := by
  rcases pmmAllocPage_cases hi.cursor with ⟨p, hclear, heq⟩ | ⟨-, heq⟩
  · obtain ⟨rfl, rfl⟩ := Prod.mk.inj (heq.symm.trans hcall)
    obtain ⟨hfree, hnew⟩ := hi.clear_iff.1 hclear
    have hne : p * pageSize ≠ 0 := Nat.mul_ne_zero (hinit.clear_facts hfree).1 (by decide)
    rw [if_neg hne]
    refine ⟨hi.bitmap, hi.total, Nat.succ_le_of_lt hclear.1, ?_, ?_, hi.nodup.cons hnew⟩
    · intro q hq
      change (h.pmm.bitmapSet p).bitmapTest q ↔ _
      rw [Pmm.bitmapTest_bitmapSet, hi.test q hq, List.mem_cons, page_inj]
      exact or_left_comm
    · exact List.forall_mem_cons.2 ⟨⟨p, rfl, hfree⟩, hi.held⟩
  · obtain ⟨rfl, rfl⟩ := Prod.mk.inj (heq.symm.trans hcall)
    rw [if_pos rfl]
    exact hi

/-- Freeing a page that is held keeps the invariant. -/
theorem Pages.Inv.free (hinit : init.Initialised map) (hi : h.Inv init) {page : ℕ}
    (hheld : page ∈ h.out) : (⟨pmmFreePage h.pmm page, h.out.erase page⟩ : Pages).Inv init := by
  obtain ⟨p, rfl, hp⟩ := hi.held page hheld
  have hne : p * pageSize ≠ 0 := Nat.mul_ne_zero (hinit.clear_facts hp).1 (by decide)
  obtain ⟨hbitmap, htotal, hcursor, htest⟩ := pmmFreePage_spec hi.cursor hne
  refine ⟨hbitmap.trans hi.bitmap, htotal.trans hi.total, htotal ▸ hcursor, ?_, ?_,
    hi.nodup.erase _⟩
  · intro q hq
    have hfree := hp.2
    rw [htest, hi.test q hq, Nat.mul_div_cancel _ (by decide), hi.nodup.mem_erase_iff, Ne, Ne,
      page_inj]
    by_cases hqp : q = p
    · simp [hqp, hfree]
    · simp [hqp]
  · intro page hpage
    exact hi.held page (List.mem_of_mem_erase hpage)

/-- A client writing into its page does not touch the bitmap. -/
theorem Pages.Inv.write (hinit : init.Initialised map) (hi : h.Inv init) {x : ℕ} {value : UInt8}
    (hheld : ∃ page ∈ h.out, page ≤ x ∧ x < page + pageSize) :
    (⟨{ h.pmm with mem := Function.update h.pmm.mem x value }, h.out⟩ : Pages).Inv init := by
  obtain ⟨page, hpage, hlo, hhi⟩ := hheld
  obtain ⟨p, rfl, hp⟩ := hi.held page hpage
  refine ⟨hi.bitmap, hi.total, hi.cursor, ?_, hi.held, hi.nodup⟩
  intro q hq
  rw [← hi.test q hq]
  apply Eq.to_iff
  congr 1
  apply testBit_congr
  apply Function.update_of_ne
  intro hx
  -- the byte of bit `q` belongs to the bitmap
  have hbyte : q / 8 < map.bitmapSize := lt_bitmapBytes (hinit.totalPages ▸ hq)
  rw [hi.bitmap] at hx
  apply (hinit.clear_facts hp).2 x (by omega) (by omega)
  exact Nat.div_eq_of_lt_le hlo (by rw [Nat.add_mul]; omega)

/-- Every call keeps the invariant. -/
theorem Pages.Inv.step (hinit : init.Initialised map) (hi : h.Inv init) {call : PageCall}
    {h' : Pages} (hstep : PageStep h call h') : h'.Inv init := by
  cases hstep with
  | alloc hcall => exact hi.alloc hinit hcall
  | free hheld => exact hi.free hinit hheld
  | write hheld => exact hi.write hinit hheld

/-- The page count grows with the pages held. -/
theorem Pages.Inv.used (hi : h.Inv init) :
    pmmGetUsedPages h.pmm = pmmGetUsedPages init + h.out.length := by
  have hnodup : (h.out.map (· / pageSize)).Nodup := by
    apply hi.nodup.map_on
    intro a ha b hb hab
    obtain ⟨p, rfl, -⟩ := hi.held a ha
    obtain ⟨q, rfl, -⟩ := hi.held b hb
    simp only [Nat.mul_div_cancel _ (by decide : 0 < pageSize)] at hab
    rw [hab]
  have hmem {p : ℕ} : p ∈ h.out.map (· / pageSize) ↔ p * pageSize ∈ h.out := by
    rw [List.mem_map]
    constructor
    · intro ⟨a, ha, hap⟩
      obtain ⟨q, rfl, -⟩ := hi.held a ha
      rw [Nat.mul_div_cancel _ (by decide)] at hap
      rwa [← hap]
    · intro hp
      exact ⟨_, hp, Nat.mul_div_cancel _ (by decide)⟩
  have hset : ((Finset.range init.totalPages).filter fun p => h.pmm.bitmapTest p) =
      ((Finset.range init.totalPages).filter fun p => init.bitmapTest p) ∪
        (h.out.map (· / pageSize)).toFinset := by
    ext p
    rw [Finset.mem_union, Finset.mem_filter, Finset.mem_filter, Finset.mem_range,
      List.mem_toFinset, hmem]
    constructor
    · intro ⟨hp, htest⟩
      exact ((hi.test p hp).1 htest).imp (fun h => ⟨hp, h⟩) id
    · intro hp
      have hlt : p < init.totalPages := by
        apply hp.elim And.left
        intro hout
        obtain ⟨q, hq, hclear⟩ := hi.held _ hout
        rw [page_inj.1 hq]
        exact hclear.1
      exact ⟨hlt, (hi.test p hlt).2 (hp.imp And.right id)⟩
  have hdisj : Disjoint ((Finset.range init.totalPages).filter fun p => init.bitmapTest p)
      (h.out.map (· / pageSize)).toFinset := by
    rw [Finset.disjoint_left]
    intro p hp hout
    rw [List.mem_toFinset, hmem] at hout
    obtain ⟨q, hq, hclear⟩ := hi.held _ hout
    apply hclear.2
    rw [← page_inj.1 hq]
    exact (Finset.mem_filter.1 hp).2
  rw [pmmGetUsedPages_eq, pmmGetUsedPages_eq, hi.total, hset, Finset.card_union_of_disjoint hdisj,
    List.toFinset_card_of_nodup hnodup, List.length_map]

end Steps

/-! ## Main result -/

/-- The pages `init_pmm` left clear are shared out exactly between allocator and clients. -/
structure Pages.Exact (init : Pmm) (h : Pages) : Prop where
  disjoint : ∀ p, h.pmm.Clear p → p * pageSize ∉ h.out
  shared : ∀ p, init.Clear p ↔ h.pmm.Clear p ∨ p * pageSize ∈ h.out
  held : h.out.Nodup ∧ ∀ page ∈ h.out, pageSize ∣ page
  alloc_clear : (pmmAllocPage h.pmm).1 ≠ 0 →
    ∃ p, (pmmAllocPage h.pmm).1 = p * pageSize ∧ h.pmm.Clear p
  alloc_null : (pmmAllocPage h.pmm).1 = 0 ↔ ∀ p, ¬ h.pmm.Clear p
  used : pmmGetUsedPages h.pmm = pmmGetUsedPages init + h.out.length

/-- Where some usable region has room for the bitmap, `init_pmm` clears the usable pages
that hold none of it, and every run shares these pages out exactly. -/
theorem Pages.exact_of_run {map : StivaleMap}
    (hroom : ∃ e ∈ map.regions, map.bitmapSize ≤ e.length) {mem : Memory} {calls : List PageCall}
    {h : Pages} (hrun : Run PageStep (Pages.start map mem) calls h) :
    (Pages.start map mem).pmm.Initialised map ∧ h.Exact (Pages.start map mem).pmm := by
  obtain ⟨hinit, hzero⟩ := initPmm_spec map (Pmm.boot mem) hroom
  have hi : h.Inv (Pages.start map mem).pmm := by
    apply hrun.invariant (I := Pages.Inv (Pages.start map mem).pmm)
    · exact Pages.inv_start (hzero.trans_le (Nat.zero_le _))
    · intro t call u ht hstep
      exact ht.step hinit hstep
  refine ⟨hinit, ⟨fun p hp => (hi.clear_iff.1 hp).2, ?_, ⟨hi.nodup, ?_⟩, ?_, ?_, hi.used⟩⟩
  · intro p
    rw [hi.clear_iff]
    constructor
    · intro hp
      by_cases hout : p * pageSize ∈ h.out
      · exact Or.inr hout
      · exact Or.inl ⟨hp, hout⟩
    · intro hp
      apply hp.elim And.left
      intro hout
      obtain ⟨q, hq, hclear⟩ := hi.held _ hout
      rwa [page_inj.1 hq]
  · intro page hpage
    obtain ⟨p, rfl, -⟩ := hi.held page hpage
    exact Nat.dvd_mul_left _ _
  · intro hne
    rcases pmmAllocPage_cases hi.cursor with ⟨p, hclear, heq⟩ | ⟨-, heq⟩
    · exact ⟨p, by rw [heq], hclear⟩
    · rw [heq] at hne
      exact absurd rfl hne
  · rcases pmmAllocPage_cases hi.cursor with ⟨p, hclear, heq⟩ | ⟨hnone, heq⟩
    · have hne : p * pageSize ≠ 0 :=
        Nat.mul_ne_zero (hinit.clear_facts (hi.clear_iff.1 hclear).1).1 (by decide)
      rw [heq]
      exact ⟨fun h => absurd h hne, fun h => absurd hclear (h p)⟩
    · rw [heq]
      exact ⟨fun _ => hnone, fun _ => rfl⟩

/-- Three pages from `0x1000` on, the first of which holds the bitmap. -/
def threePages : StivaleMap :=
  singleRegion 0x1000 3 secondPage_ne_zero secondPage_aligned (by decide)

/-- A page of three is handed out. -/
theorem Pages.exact_of_run_threePages : ∃ h : Pages, h.out = [0x3000] ∧
    (Pages.start threePages fun _ => 0).pmm.Initialised threePages ∧
      h.Exact (Pages.start threePages fun _ => 0).pmm := by
  have hcalls : ∃ h, Run PageStep (Pages.start threePages fun _ => 0)
      [.alloc, .alloc, .free 0x2000] h ∧ h.out = [0x3000] :=
    ⟨_, .cons (.alloc rfl) (.cons (.alloc rfl) (.single (.free (by decide)))), by decide⟩
  obtain ⟨h, hrun, hout⟩ := hcalls
  exact ⟨h, hout, Pages.exact_of_run ⟨⟨0x1000, 0x3000, 1⟩, by decide, by decide⟩ hrun⟩

end Orionis.Mem
