import Mathlib.Data.Set.Insert
import Mathlib.Order.Bounds.Defs
import Orionis.Mem.BitmapPages

/-!
# The scan cursor of the page allocator

`pmm_alloc_page` scans from behind the page it took last, and `pmm_free_page` moves the
cursor back to a page below it. Every page below the cursor is taken, so the allocator
hands out the lowest clear page: with the cursor forgotten it is first fit.
-/

namespace Orionis.Mem

open Orionis.Foundations

/-! ## First fit -/

/-- What is asked of a pool: to take a place out, with the place or nothing as the answer,
or to give a place back. -/
inductive PoolCall (ι : Type*)
  | take (place : Option ι)
  | give (place : Option ι)

/-- A pool of free places that always hands out the least one. -/
inductive FirstFit {ι : Type*} [LinearOrder ι] : Set ι → PoolCall ι → Set ι → Prop
  | take {free : Set ι} {i : ι} (hleast : IsLeast free i) :
      FirstFit free (.take (some i)) (free \ {i})
  | exhausted : FirstFit ∅ (.take none) ∅
  | give (free : Set ι) (i : ι) : FirstFit free (.give (some i)) (insert i free)
  | giveNull (free : Set ι) : FirstFit free (.give none) free

/-! ## The allocator -/

/-- A call of the allocator: the address it returned, or the one it was given. -/
inductive PmmCall
  | alloc (page : ℕ)
  | free (page : ℕ)
  deriving DecidableEq, Repr

/-- One call. Any page below the top may be given back, also one that is not taken. -/
inductive PmmStep : Pmm → PmmCall → Pmm → Prop
  | alloc (s : Pmm) : PmmStep s (.alloc (pmmAllocPage s).1) (pmmAllocPage s).2
  | free {s : Pmm} {p : ℕ} (hp : p < s.totalPages) :
      PmmStep s (.free (p * pageSize)) (pmmFreePage s (p * pageSize))

/-- The page at an address; null is none. -/
def pageOf (page : ℕ) : Option ℕ := if page = 0 then none else some (page / pageSize)

/-- A call as one of a pool of pages. -/
def PmmCall.onPool : PmmCall → PoolCall ℕ
  | .alloc page => .take (pageOf page)
  | .free page => .give (pageOf page)

/-- `pmm_alloc_page` without the cursor: one scan of the whole bitmap. -/
def scanFromZero (s : Pmm) : ℕ × Pmm :=
  match scanClear s s.totalPages 0 with
  | some i => (i * pageSize, { s.bitmapSet i with lastCheckedPage := i + 1 })
  | none => (0, s)

namespace Pmm

/-- The pages that may be handed out. -/
def clearPages (s : Pmm) : Set ℕ := {p | s.Clear p}

/-- What holds of every state reached: all pages below the cursor are taken, and so is the
page at null. -/
structure CursorInv (s : Pmm) : Prop where
  cursor_le : s.lastCheckedPage ≤ s.totalPages
  below_used : ∀ p < s.lastCheckedPage, s.bitmapTest p
  zero_used : ¬ s.Clear 0

variable {s : Pmm}

/-- No clear page lies below the cursor. -/
theorem CursorInv.cursor_le_of_clear (hi : s.CursorInv) {p : ℕ} (hp : s.Clear p) :
    s.lastCheckedPage ≤ p := by
  by_contra hlt
  exact hp.2 (hi.below_used p (by omega))

/-- The scan from the start to the cursor finds nothing. -/
theorem CursorInv.fallback (hi : s.CursorInv) : scanClear s s.lastCheckedPage 0 = none := by
  rcases scanClear_spec s s.lastCheckedPage 0 with ⟨p, -, hp, hclear, -⟩ | ⟨-, heq⟩
  · exact absurd (hi.below_used p (by omega)) hclear
  · exact heq

/-- All pages that a scan passed before its result are taken. -/
theorem scanClear_some {count i p : ℕ} (h : scanClear s count i = some p) :
    i ≤ p ∧ p < i + count ∧ ¬ s.bitmapTest p ∧ ∀ q, i ≤ q → q < p → s.bitmapTest q := by
  induction count generalizing i with
  | zero => cases h
  | succ count ih =>
    rw [scanClear] at h
    by_cases hi : s.bitmapTest i
    · rw [if_neg (not_not.2 hi)] at h
      obtain ⟨hlo, hhi, hclear, hpassed⟩ := ih h
      refine ⟨by omega, by omega, hclear, ?_⟩
      intro q hiq hqp
      by_cases hq : q = i
      · rw [hq]
        exact hi
      · exact hpassed q (by omega) hqp
    · rw [if_pos hi] at h
      obtain rfl := Option.some.inj h
      exact ⟨le_rfl, by omega, hi, fun q hiq hqi => absurd hiq (by omega)⟩

/-- A scan to the end from a page at or below every clear one finds the lowest. -/
theorem scanClear_least {first : ℕ} (hfirst : first ≤ s.totalPages)
    (hbelow : ∀ p, s.Clear p → first ≤ p) :
    (∃ p, IsLeast s.clearPages p ∧ scanClear s (s.totalPages - first) first = some p) ∨
      (s.clearPages = ∅ ∧ scanClear s (s.totalPages - first) first = none) := by
  rcases scanClear_spec s (s.totalPages - first) first with ⟨p, -, hp, hclear, heq⟩ | ⟨hset, heq⟩
  · left
    obtain ⟨-, -, -, hpassed⟩ := scanClear_some heq
    refine ⟨p, ⟨⟨by omega, hclear⟩, ?_⟩, heq⟩
    intro q hq
    by_contra hlt
    exact hq.2 (hpassed q (hbelow q hq) (by omega))
  · right
    refine ⟨Set.eq_empty_of_forall_notMem ?_, heq⟩
    intro p hp
    have htop := hp.1
    exact hp.2 (hset p (hbelow p hp) (by omega))

/-- An allocation takes the lowest clear page, or there is none. -/
theorem CursorInv.alloc_cases (hi : s.CursorInv) :
    (∃ p, IsLeast s.clearPages p ∧
        pmmAllocPage s = (p * pageSize, { s.bitmapSet p with lastCheckedPage := p + 1 })) ∨
      (s.clearPages = ∅ ∧ pmmAllocPage s = (0, s)) := by
  rw [pmmAllocPage]
  rcases scanClear_least hi.cursor_le fun p hp => hi.cursor_le_of_clear hp with
    ⟨p, hleast, heq⟩ | ⟨hempty, heq⟩
  · exact Or.inl ⟨p, hleast, by rw [heq]⟩
  · exact Or.inr ⟨hempty, by rw [heq, hi.fallback]⟩

/-- It does what one scan of the whole bitmap does. -/
theorem CursorInv.alloc_eq (hi : s.CursorInv) : pmmAllocPage s = scanFromZero s := by
  have hplain := scanClear_least (s := s) (Nat.zero_le _) fun p _ => Nat.zero_le p
  rw [Nat.sub_zero] at hplain
  rw [scanFromZero]
  rcases hi.alloc_cases with ⟨p, hleast, halloc⟩ | ⟨hempty, halloc⟩
  · rcases hplain with ⟨q, hfirst, heq⟩ | ⟨hempty, -⟩
    · rw [halloc, heq, hleast.unique hfirst]
    · exact absurd (hempty ▸ hleast.1) (Set.notMem_empty p)
  · rcases hplain with ⟨q, hfirst, -⟩ | ⟨-, heq⟩
    · exact absurd (hempty ▸ hfirst.1) (Set.notMem_empty q)
    · rw [halloc, heq]

/-! ## Steps -/

/-- Page zero is not handed out, so null is no answer with a page. -/
theorem CursorInv.pageOf_least (hi : s.CursorInv) {p : ℕ} (hleast : IsLeast s.clearPages p) :
    p * pageSize ≠ 0 ∧ pageOf (p * pageSize) = some p := by
  have hne : p ≠ 0 := fun hp => hi.zero_used (hp ▸ hleast.1)
  have haddr : p * pageSize ≠ 0 := Nat.mul_ne_zero hne (by decide)
  refine ⟨haddr, ?_⟩
  rw [pageOf, if_neg haddr, Nat.mul_div_cancel _ (by decide)]

/-- Setting the bit of the lowest clear page. -/
theorem CursorInv.take (hi : s.CursorInv) {p : ℕ} (hleast : IsLeast s.clearPages p) :
    let t := { s.bitmapSet p with lastCheckedPage := p + 1 }
    t.CursorInv ∧ t.clearPages = s.clearPages \ {p} := by
  have htest (q : ℕ) : ({ s.bitmapSet p with lastCheckedPage := p + 1 } : Pmm).bitmapTest q ↔
      q = p ∨ s.bitmapTest q := bitmapTest_bitmapSet
  refine ⟨⟨hleast.1.1, ?_, ?_⟩, ?_⟩
  · intro q hq
    rw [htest]
    by_cases hqp : q = p
    · exact Or.inl hqp
    · right
      by_contra hclear
      have hle : p ≤ q := hleast.2 ⟨(Nat.lt_succ_iff.1 hq).trans_lt hleast.1.1, hclear⟩
      change q < p + 1 at hq
      omega
  · intro hzero
    rw [Clear, htest, not_or] at hzero
    exact hi.zero_used ⟨hzero.1, hzero.2.2⟩
  · ext q
    change q < s.totalPages ∧ ¬ _ ↔ (q < s.totalPages ∧ _) ∧ q ≠ p
    rw [htest, not_or]
    tauto

/-- The cursor moves back to a page given back below it. -/
theorem pmmFreePage_cursor {p : ℕ} (hne : p ≠ 0) :
    (pmmFreePage s (p * pageSize)).lastCheckedPage = min p s.lastCheckedPage := by
  rw [pmmFreePage, if_neg (Nat.mul_ne_zero hne (by decide))]
  simp only [Nat.mul_div_cancel p (by decide : 0 < pageSize)]
  split
  · next hlt => exact (Nat.min_eq_left (Nat.le_of_lt hlt)).symm
  · next hge => exact (Nat.min_eq_right (Nat.le_of_not_lt hge)).symm

/-- Giving back a page that is not at null. -/
theorem CursorInv.give (hi : s.CursorInv) {p : ℕ} (hp : p < s.totalPages) (hne : p ≠ 0) :
    (pmmFreePage s (p * pageSize)).CursorInv ∧
      (pmmFreePage s (p * pageSize)).clearPages = insert p s.clearPages := by
  obtain ⟨-, htotal, hcursor, htest⟩ :=
    pmmFreePage_spec hi.cursor_le (Nat.mul_ne_zero hne (by decide : pageSize ≠ 0))
  rw [Nat.mul_div_cancel _ (by decide)] at htest
  refine ⟨⟨htotal ▸ hcursor, ?_, ?_⟩, ?_⟩
  · intro q hq
    rw [pmmFreePage_cursor hne] at hq
    rw [htest]
    exact ⟨by omega, hi.below_used q (by omega)⟩
  · intro hzero
    rw [Clear, htest, htotal] at hzero
    exact hi.zero_used ⟨hzero.1, fun hset => hzero.2 ⟨fun h => hne h.symm, hset⟩⟩
  · ext q
    rw [Set.mem_insert_iff]
    change _ ∧ ¬ _ ↔ _ ∨ (_ ∧ ¬ _)
    rw [htest, htotal]
    by_cases hqp : q = p
    · simp [hqp, hp]
    · simp [hqp]

/-- Every call keeps the invariant and is one of first fit over the clear pages. -/
theorem CursorInv.step (hi : s.CursorInv) {call : PmmCall} {t : Pmm} (hstep : PmmStep s call t) :
    t.CursorInv ∧ FirstFit s.clearPages call.onPool t.clearPages := by
  cases hstep with
  | alloc =>
    rcases hi.alloc_cases with ⟨p, hleast, heq⟩ | ⟨hempty, heq⟩
    · obtain ⟨hinv, hclear⟩ := hi.take hleast
      rw [heq, PmmCall.onPool, (hi.pageOf_least hleast).2, hclear]
      exact ⟨hinv, .take hleast⟩
    · rw [heq, PmmCall.onPool, hempty]
      exact ⟨hi, .exhausted⟩
  | free hp =>
    rename_i p
    by_cases hzero : p = 0
    · subst hzero
      rw [Nat.zero_mul]
      exact ⟨hi, .giveNull _⟩
    · obtain ⟨hinv, hclear⟩ := hi.give hp hzero
      rw [PmmCall.onPool, pageOf, if_neg (Nat.mul_ne_zero hzero (by decide)),
        Nat.mul_div_cancel _ (by decide), hclear]
      exact ⟨hinv, .give _ p⟩

/-- `init_pmm` leaves page zero taken and the cursor where it was. -/
theorem cursorInv_initPmm (map : StivaleMap) (hcursor : s.lastCheckedPage = 0) :
    (initPmm s map.entries).CursorInv := by
  obtain ⟨-, -, hkept, htest⟩ := initPmm_loops map s
  rw [hcursor] at hkept
  refine ⟨by omega, fun p hp => absurd hp (by omega), ?_⟩
  intro hzero
  rw [Clear, htest 0 hzero.1, not_or, not_not] at hzero
  have hlow := (StivaleMap.bounds_of_mem_usable hzero.2.2).1
  simp [pageSize] at hlow

/-! ## Main result -/

/-- The cursor only saves work. -/
structure ExactCursor (s : Pmm) : Prop where
  below_used : ∀ p < s.lastCheckedPage, s.bitmapTest p
  lowest : ∀ p, IsLeast s.clearPages p → (pmmAllocPage s).1 = p * pageSize
  null_iff : (pmmAllocPage s).1 = 0 ↔ ∀ p, ¬ s.Clear p
  plain : pmmAllocPage s = scanFromZero s
  fallback : scanClear s s.lastCheckedPage 0 = none

/-- So the search from the cursor on is exact. -/
theorem CursorInv.exact (hi : s.CursorInv) : s.ExactCursor := by
  refine ⟨hi.below_used, ?_, ?_, hi.alloc_eq, hi.fallback⟩
  · intro p hp
    rcases hi.alloc_cases with ⟨q, hleast, heq⟩ | ⟨hempty, -⟩
    · rw [heq, hleast.unique hp]
    · exact absurd (hempty ▸ hp.1) (Set.notMem_empty p)
  · rcases hi.alloc_cases with ⟨q, hleast, heq⟩ | ⟨hempty, heq⟩
    · rw [heq]
      constructor
      · exact fun hzero => absurd hzero (hi.pageOf_least hleast).1
      · exact fun hnone => absurd hleast.1 (hnone q)
    · rw [heq]
      constructor
      · exact fun _ p hp => Set.notMem_empty p (hempty ▸ hp)
      · exact fun _ => rfl

/-- Every run from `init_pmm` is one of first fit, and in every state it reaches an
allocation does what a scan from page zero would do. -/
theorem exactCursor_of_run {map : StivaleMap} {mem : Memory} {calls : List PmmCall}
    (hrun : Run PmmStep (initPmm (boot mem) map.entries) calls s) :
    s.ExactCursor ∧
      Run FirstFit (initPmm (boot mem) map.entries).clearPages (calls.map PmmCall.onPool)
        s.clearPages := by
  have hboth : s.CursorInv ∧
      Run FirstFit (initPmm (boot mem) map.entries).clearPages (calls.map PmmCall.onPool)
        s.clearPages := by
    induction hrun with
    | nil => exact ⟨cursorInv_initPmm map rfl, .nil _⟩
    | snoc _ he ih =>
      obtain ⟨hinv, hfit⟩ := ih.1.step he
      rw [List.map_append]
      exact ⟨hinv, .snoc ih.2 hfit⟩
  exact ⟨hboth.1.exact, hboth.2⟩

/-- Two pages are taken and the first of them given back twice. -/
theorem exactCursor_of_run_threePages :
    ∃ s : Pmm, s.lastCheckedPage = 2 ∧ s.ExactCursor ∧
      Run FirstFit (initPmm (boot fun _ => 0) threePages.entries).clearPages
        [.take (some 2), .take (some 3), .give (some 2), .give (some 2)] s.clearPages := by
  have hcalls : ∃ s, Run PmmStep (initPmm (boot fun _ => 0) threePages.entries)
      [.alloc 0x2000, .alloc 0x3000, .free 0x2000, .free 0x2000] s ∧ s.lastCheckedPage = 2 := by
    refine ⟨_, .cons (.alloc _) (.cons (.alloc _) (.cons (.free (p := 2) ?_)
      (.single (.free (p := 2) ?_)))), ?_⟩
    · decide
    · decide
    · decide
  obtain ⟨s, hrun, hcursor⟩ := hcalls
  exact ⟨s, hcursor, exactCursor_of_run hrun⟩

end Pmm
end Orionis.Mem
