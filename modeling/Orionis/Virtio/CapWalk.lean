import Mathlib.Logic.Function.Iterate
import Orionis.Virtio.Pci

/-!
# The end of the capability walk

The walk of `virtio_net_init` follows `cap_next` until it is zero, with nothing that counts the
rounds. `pci_get_address` clears the low two bits of an offset, so pointers that differ in these
alone lead to one header. The walk ends, meets no header twice and stays within the configuration
space exactly when no header leads back to itself and the capabilities it reads lie whole below
offset 256.
-/

namespace Orionis.Virtio

/-! ## The walk -/

variable (env : Env)

/-- The offset that is read for a pointer. -/
def header (ptr : UInt8) : UInt8 := ptr &&& 0xFC

/-- The pointers the walk follows, in at most `fuel` rounds. -/
def walkPtrs : (fuel : ℕ) → (capPtrOffset : UInt8) → List UInt8
  | 0, _ => []
  | fuel + 1, capPtrOffset =>
    if capPtrOffset = 0 then []
    else capPtrOffset :: walkPtrs fuel (capAt env capPtrOffset).next

/-- The walk reads the multiplier of the capability as well. -/
def readsMultiplier (bars : ℕ → Bar) (cap : Cap) : Prop := cap.taken bars ∧ cap.cfgType = 2

instance (bars : ℕ → Bar) (cap : Cap) : Decidable (readsMultiplier bars cap) :=
  inferInstanceAs (Decidable (_ ∧ _))

/-- The offsets one round reads at, before they are cut to a byte. -/
def capReads (bars : ℕ → Bar) (ptr : UInt8) : List ℕ :=
  let cap := capAt env ptr
  ptr.toNat :: if cap.vndr = 0x09 then
    [ptr.toNat + 4, ptr.toNat + 8] ++ if readsMultiplier bars cap then [ptr.toNat + 16] else []
  else []

/-- The walk from `n` ends, meets no header twice, and reads at no offset that has wrapped. -/
structure WalksOnce (n : Net) : Prop where
  ends : ∃ fuel, (walkCaps env fuel (capPointer env) n).isSome
  once : ∀ fuel, ((walkPtrs env fuel (capPointer env)).map header).Nodup
  inside : ∀ fuel, ∀ ptr ∈ walkPtrs env fuel (capPointer env),
    ∀ offset ∈ capReads env n.pciBars ptr, offset < 256

/-! ## The pointers by their number -/

/-- The pointer after another one; none comes after the end. -/
def nextPtr (ptr : UInt8) : UInt8 := if ptr = 0 then 0 else (capAt env ptr).next

/-- The `k`-th pointer of the list, zero from its end on. -/
def capPtr (k : ℕ) : UInt8 := (nextPtr env)^[k] (capPointer env)

/-- No pointer of the list leads back to its header. -/
def LoopFree : Prop :=
  ∀ i j, i < j → capPtr env j ≠ 0 → header (capPtr env i) ≠ header (capPtr env j)

/-- A capability of the list does not reach beyond the configuration space: twelve bytes of a
vendor-specific one, and twenty where the multiplier is read. -/
structure FitsSpace (bars : ℕ → Bar) (ptr : UInt8) : Prop where
  vendor : (capAt env ptr).vndr = 0x09 → ptr.toNat ≤ 0xF7
  multiplier : readsMultiplier bars (capAt env ptr) → ptr.toNat ≤ 0xEF

variable {env}

/-- Each pointer leads to the next one. -/
theorem capPtr_succ (k : ℕ) : capPtr env (k + 1) = nextPtr env (capPtr env k) :=
  Function.iterate_succ_apply' _ _ _

/-- Behind the null pointer there are only null pointers. -/
theorem iterate_nextPtr_zero (k : ℕ) : (nextPtr env)^[k] 0 = 0 := by
  have hzero : nextPtr env 0 = 0 := if_pos rfl
  exact Function.iterate_fixed hzero k

/-- So the list does not go on behind its end. -/
theorem capPtr_eq_zero_of_le {i j : ℕ} (hle : i ≤ j) (h : capPtr env i = 0) :
    capPtr env j = 0 := by
  obtain ⟨k, rfl⟩ := Nat.exists_eq_add_of_le' hle
  rw [capPtr, Function.iterate_add_apply]
  change (nextPtr env)^[k] (capPtr env i) = 0
  rw [h, iterate_nextPtr_zero]

/-- The walk returns when it comes to a null pointer within its rounds. -/
theorem walkCaps_isSome_iff (fuel : ℕ) (ptr : UInt8) (n : Net) :
    (walkCaps env fuel ptr n).isSome ↔ ∃ k < fuel, (nextPtr env)^[k] ptr = 0 := by
  induction fuel generalizing ptr n with
  | zero => simp [walkCaps]
  | succ fuel ih =>
    rw [walkCaps]
    by_cases hend : ptr = 0
    · rw [if_pos hend]
      exact iff_of_true rfl ⟨0, Nat.succ_pos fuel, hend⟩
    · have hnext : nextPtr env ptr = (capAt env ptr).next := if_neg hend
      rw [if_neg hend]
      dsimp only
      rw [ih, Nat.exists_lt_succ_left]
      simp only [Function.iterate_zero_apply, Function.iterate_succ_apply, hnext, hend, false_or]

/-- The pointers the walk comes to. -/
theorem walkPtrs_getElem? (fuel : ℕ) (ptr : UInt8) (k : ℕ) (p : UInt8) :
    (walkPtrs env fuel ptr)[k]? = some p ↔ k < fuel ∧ (nextPtr env)^[k] ptr = p ∧ p ≠ 0 := by
  induction fuel generalizing ptr k with
  | zero => simp [walkPtrs]
  | succ fuel ih =>
    rw [walkPtrs]
    by_cases hend : ptr = 0
    · rw [if_pos hend, hend, iterate_nextPtr_zero]
      refine iff_of_false nofun ?_
      rintro ⟨-, rfl, hne⟩
      exact hne rfl
    · have hnext : nextPtr env ptr = (capAt env ptr).next := if_neg hend
      rw [if_neg hend]
      cases k with
      | zero =>
        rw [List.getElem?_cons_zero, Option.some_inj, Function.iterate_zero_apply]
        constructor
        · rintro rfl
          exact ⟨Nat.succ_pos fuel, rfl, hend⟩
        · exact fun h => h.2.1
      | succ k =>
        rw [List.getElem?_cons_succ, ih, Function.iterate_succ_apply, hnext,
          Nat.succ_lt_succ_iff]

/-- The walk follows the pointers of the list. -/
theorem mem_walkPtrs (fuel : ℕ) (p : UInt8) : p ∈ walkPtrs env fuel (capPointer env) ↔
    ∃ k < fuel, capPtr env k = p ∧ p ≠ 0 := by
  rw [List.mem_iff_getElem?]
  simp only [walkPtrs_getElem?]
  rfl

/-! ## Headers -/

/-- The header of a pointer is the word it points into. -/
theorem header_toNat (ptr : UInt8) : (header ptr).toNat = ptr.toNat / 4 * 4 := by
  have hall : ∀ n < 256, (UInt8.ofNat n &&& 0xFC).toNat = n / 4 * 4 := by decide +kernel
  have hptr := hall ptr.toNat ptr.toNat_lt
  rwa [UInt8.ofNat_toNat] at hptr

/-- What comes after a pointer depends on its header only. -/
theorem nextPtr_eq_of_header {p q : UInt8} (h : header p = header q) (hp : p ≠ 0) (hq : q ≠ 0) :
    nextPtr env p = nextPtr env q := by
  have hdiv : p.toNat / 4 = q.toNat / 4 := by
    have htoNat := congrArg UInt8.toNat h
    rw [header_toNat, header_toNat] at htoNat
    omega
  have hread : pciReadDword env p = pciReadDword env q := by
    rw [pciReadDword, pciReadDword, hdiv]
  rw [nextPtr, nextPtr, if_neg hp, if_neg hq, capAt, capAt, hread]

/-- A list that ends never leads back: behind two pointers to one header it would go on in
the same way, and so end twice. -/
theorem loopFree_of_ends {m : ℕ} (h : capPtr env m = 0) : LoopFree env := by
  intro i j hlt hj hheader
  have hi : capPtr env i ≠ 0 := fun hzero => hj (capPtr_eq_zero_of_le hlt.le hzero)
  have hex : ∃ m, capPtr env m = 0 := ⟨m, h⟩
  have hend : capPtr env (Nat.find hex) = 0 := Nat.find_spec hex
  have hmore : j < Nat.find hex := by
    by_contra hge
    exact hj (capPtr_eq_zero_of_le (Nat.le_of_not_lt hge) hend)
  have hsame : capPtr env (i + 1) = capPtr env (j + 1) := by
    rw [capPtr_succ, capPtr_succ]
    exact nextPtr_eq_of_header hheader hi hj
  have hahead : ∀ k, capPtr env (k + (i + 1)) = capPtr env (k + (j + 1)) := by
    intro k
    rw [capPtr, capPtr, Function.iterate_add_apply _ k (i + 1),
      Function.iterate_add_apply _ k (j + 1)]
    exact congrArg (nextPtr env)^[k] hsame
  obtain ⟨k, hk⟩ := Nat.exists_eq_add_of_le' hmore
  have hearlier : capPtr env (k + (i + 1)) = 0 := by rw [hahead, ← hk, hend]
  exact Nat.find_min hex (by omega) hearlier

/-- A list without loops ends, since there are 255 pointers. -/
theorem ends_of_loopFree (h : LoopFree env) : ∃ k < 256, capPtr env k = 0 := by
  by_contra hnone
  have hne : ∀ k < 256, capPtr env k ≠ 0 := fun k hk hzero => hnone ⟨k, hk, hzero⟩
  have hnodup : ((List.range 256).map (capPtr env)).Nodup := by
    rw [List.nodup_map_iff_inj_on List.nodup_range]
    intro i hi j hj heq
    by_contra hij
    rcases Nat.lt_or_gt_of_ne hij with hlt | hlt
    · exact h i j hlt (hne j (List.mem_range.1 hj)) (congrArg header heq)
    · exact h j i hlt (hne i (List.mem_range.1 hi)) (congrArg header heq.symm)
  have h0 : 0 ∉ (List.range 256).map (capPtr env) := by
    rw [List.mem_map]
    rintro ⟨k, hk, hzero⟩
    exact hne k (List.mem_range.1 hk) hzero
  have hlength := length_lt_of_nodup hnodup h0
  rw [List.length_map, List.length_range] at hlength
  exact absurd hlength (lt_irrefl 256)

/-! ## Main result -/

/-- On a list without loops no header is visited twice. -/
theorem nodup_walkPtrs (h : LoopFree env) (fuel : ℕ) :
    ((walkPtrs env fuel (capPointer env)).map header).Nodup := by
  rw [List.Nodup, List.pairwise_map, List.pairwise_iff_getElem]
  intro i j hi hj hlt
  have hget : ∀ k (hk : k < (walkPtrs env fuel (capPointer env)).length),
      capPtr env k = (walkPtrs env fuel (capPointer env))[k] ∧ capPtr env k ≠ 0 := by
    intro k hk
    obtain ⟨-, heq, hne⟩ := (walkPtrs_getElem? fuel (capPointer env) k _).1
      (List.getElem?_eq_getElem hk)
    exact ⟨heq, fun hzero => hne (heq.symm.trans hzero)⟩
  rw [← (hget i hi).1, ← (hget j hj).1]
  exact h i j hlt (hget j hj).2

/-- The reads of a capability stay within configuration space when it fits. -/
theorem capReads_lt_iff (bars : ℕ → Bar) (ptr : UInt8) :
    (∀ offset ∈ capReads env bars ptr, offset < 256) ↔ FitsSpace env bars ptr := by
  have hptr := ptr.toNat_lt
  rw [capReads, List.forall_mem_cons]
  by_cases hvndr : (capAt env ptr).vndr = 0x09
  · rw [if_pos hvndr]
    by_cases hmultiplier : readsMultiplier bars (capAt env ptr)
    · rw [if_pos hmultiplier, List.forall_mem_append]
      simp only [List.mem_cons, List.not_mem_nil, or_false, forall_eq_or_imp, forall_eq]
      constructor
      · intro h
        exact ⟨fun _ => by omega, fun _ => by omega⟩
      · intro h
        have hle := h.multiplier hmultiplier
        omega
    · rw [if_neg hmultiplier, List.append_nil]
      simp only [List.mem_cons, List.not_mem_nil, or_false, forall_eq_or_imp, forall_eq]
      constructor
      · intro h
        exact ⟨fun _ => by omega, fun hm => absurd hm hmultiplier⟩
      · intro h
        have hle := h.vendor hvndr
        omega
  · rw [if_neg hvndr]
    refine iff_of_true ⟨hptr, List.forall_mem_nil _⟩ ⟨fun hv => absurd hv hvndr, fun hm => absurd hm.1.1 hvndr⟩

variable (env)

/-- The walk ends, meets no header twice and reads within the configuration space, exactly when
the list has no loop and its capabilities lie in the space. -/
theorem walksOnce_iff (n : Net) : WalksOnce env n ↔
    LoopFree env ∧ ∀ k, capPtr env k ≠ 0 → FitsSpace env n.pciBars (capPtr env k) := by
  constructor
  · intro h
    obtain ⟨fuel, hends⟩ := h.ends
    obtain ⟨m, -, hzero⟩ := (walkCaps_isSome_iff fuel (capPointer env) n).1 hends
    refine ⟨loopFree_of_ends hzero, fun k hne => ?_⟩
    rw [← capReads_lt_iff]
    exact h.inside (k + 1) _ ((mem_walkPtrs _ _).2 ⟨k, Nat.lt_succ_self k, rfl, hne⟩)
  · rintro ⟨hloop, hfits⟩
    refine ⟨?_, nodup_walkPtrs hloop, fun fuel ptr hmem => ?_⟩
    · obtain ⟨k, hk, hzero⟩ := ends_of_loopFree hloop
      exact ⟨256, (walkCaps_isSome_iff 256 (capPointer env) n).2 ⟨k, hk, hzero⟩⟩
    · obtain ⟨k, -, rfl, hne⟩ := (mem_walkPtrs fuel ptr).1 hmem
      exact (capReads_lt_iff n.pciBars _).2 (hfits k hne)

/-- A capability that is its own successor. -/
def selfLinked : Env where
  config := fun i => if i = 13 then 0x40 else if i = 16 then 0x00004005 else 0
  reply := fun _ => 0
  alloc := fun _ => 0

/-- The walk never ends there. -/
theorem not_walksOnce_selfLinked : ¬ WalksOnce selfLinked Net.boot := by
  intro h
  obtain ⟨fuel, hends⟩ := h.ends
  obtain ⟨m, -, hzero⟩ := (walkCaps_isSome_iff fuel (capPointer selfLinked) Net.boot).1 hends
  exact loopFree_of_ends hzero 0 1 Nat.one_pos (by decide) (by decide)

end Orionis.Virtio
