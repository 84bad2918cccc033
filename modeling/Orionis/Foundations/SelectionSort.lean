import Mathlib.Algebra.Order.Group.Nat
import Mathlib.Data.List.Pairwise
import Mathlib.Data.List.Perm.Basic

/-!
# Selection sort

Sorting a table in place: each round looks for the first least key behind the entries already in
place and swaps it there.
-/

namespace Orionis.Foundations

variable {α : Type*} {key : α → ℕ}

/-- The key at an index, zero behind the end. -/
def keyAt (key : α → ℕ) (l : List α) (i : ℕ) : ℕ := l[i]?.elim 0 key

/-- The first index from `p` on with the least key. -/
def minFrom (key : α → ℕ) (l : List α) (p : ℕ) : ℕ :=
  (List.range' p (l.length - p)).foldl (fun m i => if keyAt key l i < keyAt key l m then i else m) p

/-- The rounds of a selection sort. The last entry is in place by then. -/
def selectionSort (key : α → ℕ) (l : List α) : List α :=
  (List.range (l.length - 1)).foldl (fun l p => l.swap p (minFrom key l p)) l

/-- The key at an index of the list. -/
theorem keyAt_of_lt {l : List α} {i : ℕ} (h : i < l.length) : keyAt key l i = key l[i] := by
  rw [keyAt, List.getElem?_eq_getElem h, Option.elim_some]

/-- The keys after a swap. -/
theorem keyAt_swap {l : List α} {i j k : ℕ} (hi : i < l.length) (hj : j < l.length)
    (hk : k < l.length) : keyAt key (l.swap i j) k =
      keyAt key l (if k = i then j else if k = j then i else k) := by
  rw [keyAt_of_lt (List.length_swap.symm ▸ hk), List.getElem_swap]
  split_ifs with hleft _ _ hright
  all_goals first | omega | rw [keyAt_of_lt]

/-- The index found is one of those looked at, and none of them has a smaller key. -/
theorem minFrom_spec {l : List α} {p : ℕ} (h : p < l.length) :
    p ≤ minFrom key l p ∧ minFrom key l p < l.length ∧
      ∀ i, p ≤ i → i < l.length → keyAt key l (minFrom key l p) ≤ keyAt key l i := by
  have hloop : ∀ n ≤ l.length - p, ∀ m, m = (List.range' p n).foldl
      (fun m i => if keyAt key l i < keyAt key l m then i else m) p →
      p ≤ m ∧ m < l.length ∧ ∀ i, p ≤ i → i < p + n → keyAt key l m ≤ keyAt key l i := by
    intro n
    induction n with
    | zero => exact fun _ m hm => ⟨hm.ge, hm.trans_lt h, fun i _ _ => by omega⟩
    | succ n ih =>
      intro hn m hm
      obtain ⟨hge, hlt, hleast⟩ := ih (by omega) _ rfl
      rw [List.range'_1_concat, List.foldl_append] at hm
      generalize (List.range' p n).foldl _ p = m' at hm hge hlt hleast
      rw [List.foldl_cons, List.foldl_nil] at hm
      split at hm
      case isTrue hless =>
        subst hm
        refine ⟨by omega, by omega, fun i hlo hhi => ?_⟩
        rcases Nat.lt_or_ge i (p + n) with hi | hi
        · exact hless.le.trans (hleast i hlo hi)
        · rw [show i = p + n by omega]
      case isFalse hmore =>
        subst hm
        refine ⟨hge, hlt, fun i hlo hhi => ?_⟩
        rcases Nat.lt_or_ge i (p + n) with hi | hi
        · exact hleast i hlo hi
        · rw [show i = p + n by omega]
          exact Nat.not_lt.1 hmore
  obtain ⟨hge, hlt, hleast⟩ := hloop (l.length - p) le_rfl _ rfl
  exact ⟨hge, hlt, fun i hlo hhi => hleast i hlo (by omega)⟩

/-- The first entries are in place: none behind them has a smaller key. -/
def InPlace (key : α → ℕ) (n : ℕ) (l : List α) : Prop :=
  ∀ i < n, ∀ j, i < j → j < l.length → keyAt key l i ≤ keyAt key l j

/-- A round puts one more entry in place. -/
theorem InPlace.round {l : List α} {p : ℕ} (h : InPlace key p l) (hp : p < l.length) :
    InPlace key (p + 1) (l.swap p (minFrom key l p)) := by
  obtain ⟨hge, hlt, hleast⟩ := @minFrom_spec α key l p hp
  generalize minFrom key l p = m at hge hlt hleast
  intro i hi j hij hj
  rw [List.length_swap] at hj
  rw [keyAt_swap hp hlt (by omega), keyAt_swap hp hlt hj]
  rcases Nat.lt_succ_iff_lt_or_eq.1 hi with hi | rfl
  · rw [if_neg (by omega), if_neg (by omega)]
    exact h i hi _ (by split_ifs <;> omega) (by split_ifs <;> omega)
  · rw [if_pos rfl]
    exact hleast _ (by split_ifs <;> omega) (by split_ifs <;> omega)

/-- After a number of rounds so many elements are in their place. -/
theorem selectionSort_rounds (key : α → ℕ) (l : List α) {n : ℕ} (h : n ≤ l.length) :
    ((List.range n).foldl (fun l p => l.swap p (minFrom key l p)) l).Perm l ∧
      InPlace key n ((List.range n).foldl (fun l p => l.swap p (minFrom key l p)) l) := by
  induction n with
  | zero => exact ⟨List.Perm.refl l, fun i hi => absurd hi (Nat.not_lt_zero i)⟩
  | succ n ih =>
    obtain ⟨hperm, hplace⟩ := ih (by omega)
    rw [List.range_succ, List.foldl_append, List.foldl_cons, List.foldl_nil]
    exact ⟨(List.swap_perm _ _ _).trans hperm, hplace.round (by rw [hperm.length_eq]; omega)⟩

/-- The result has the same entries. -/
theorem selectionSort_perm (key : α → ℕ) (l : List α) : (selectionSort key l).Perm l :=
  (selectionSort_rounds key l (Nat.sub_le _ _)).1

/-- Keys do not go down in the result. -/
theorem selectionSort_sorted (key : α → ℕ) (l : List α) :
    (selectionSort key l).Pairwise fun a b => key a ≤ key b := by
  have hplace : InPlace key (l.length - 1) (selectionSort key l) :=
    (selectionSort_rounds key l (Nat.sub_le _ 1)).2
  have hlen := (selectionSort_perm key l).length_eq
  rw [List.pairwise_iff_getElem]
  intro i j hi hj hij
  have hkeys := hplace i (by omega) j hij hj
  rwa [keyAt_of_lt hi, keyAt_of_lt hj] at hkeys

/-- With different keys there is one sorted order. -/
theorem selectionSort_eq {l sorted : List α} (hperm : l.Perm sorted)
    (h : sorted.Pairwise fun a b => key a < key b) : selectionSort key l = sorted := by
  refine ((selectionSort_perm key l).trans hperm).eq_of_pairwise ?_ (selectionSort_sorted key l)
    (h.imp Nat.le_of_lt)
  intro a b ha hb hab hba
  by_contra hne
  have ha : a ∈ sorted := ((selectionSort_perm key l).trans hperm).mem_iff.1 ha
  have : Std.Symm fun a b : α => key a ≠ key b := ⟨fun _ _ h => h.symm⟩
  exact (h.imp Nat.ne_of_lt).forall ha hb hne (Nat.le_antisymm hab hba)

end Orionis.Foundations
