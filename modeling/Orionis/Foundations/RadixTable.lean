import Mathlib.Data.List.Infix
import Mathlib.Data.Set.Insert
import Orionis.Foundations.ByteMemory

/-!
# Radix tables in memory

A tree of tables of eight-byte entries. Each table has a page of its own, entries of the upper levels
point to tables, and what the entries of the last level mean is left open. Hanging an empty table into
the tree changes no entry of the last level; storing an entry there changes this one.
-/

namespace Orionis.Foundations

/-- How entries of the upper levels are read. -/
structure EntryFormat where
  present : ℕ → Bool
  target : ℕ → ℕ

variable {fmt : EntryFormat}

/-- The entry at an index of a table. -/
def tableEntry (m : Memory) (table i : ℕ) : ℕ := loadLE m 8 (table + 8 * i)

/-- One step down. -/
def EntryFormat.follow (fmt : EntryFormat) (m : Memory) (table i : ℕ) : Option ℕ :=
  if fmt.present (tableEntry m table i) then some (fmt.target (tableEntry m table i)) else none

/-- The table at the end of a path of indices. -/
def tableAt (fmt : EntryFormat) (m : Memory) (top : ℕ) (path : List ℕ) : Option ℕ :=
  path.foldlM (fmt.follow m) top

/-- The entry at an index of the table at the end of a path, zero where there is no table. -/
def entryAt (fmt : EntryFormat) (m : Memory) (top : ℕ) (path : List ℕ) (i : ℕ) : ℕ :=
  (tableAt fmt m top path).elim 0 fun t => tableEntry m t i

/-- A page has 512 entries. -/
def Indices (path : List ℕ) : Prop := ∀ i ∈ path, i < 512

/-- The tables down to a depth have pages of their own, and entries above it point to tables or are
zero. -/
structure RadixTree (fmt : EntryFormat) (m : Memory) (top depth : ℕ) (pages : Set ℕ) : Prop where
  aligned : ∀ t ∈ pages, 4096 ∣ t
  owned : ∀ path t, path.length ≤ depth → Indices path → tableAt fmt m top path = some t → t ∈ pages
  unique : ∀ path path' t, path.length ≤ depth → path'.length ≤ depth → Indices path →
    Indices path' → tableAt fmt m top path = some t → tableAt fmt m top path' = some t → path = path'
  clean : ∀ path t i, path.length < depth → Indices path → i < 512 →
    tableAt fmt m top path = some t → fmt.present (tableEntry m t i) = true ∨ tableEntry m t i = 0

variable {m m' : Memory} {top depth t i v : ℕ} {pages : Set ℕ} {path : List ℕ}

/-- The table at the top. -/
theorem tableAt_nil : tableAt fmt m top [] = some top := rfl

/-- Where there is no table there is no entry. -/
theorem entryAt_of_none (h : tableAt fmt m top path = none) : entryAt fmt m top path i = 0 := by
  rw [entryAt, h, Option.elim_none]

/-- The entry of a table that is there. -/
theorem entryAt_of_some (h : tableAt fmt m top path = some t) :
    entryAt fmt m top path i = tableEntry m t i := by
  rw [entryAt, h, Option.elim_some]

/-- One more step down. -/
theorem tableAt_concat (path : List ℕ) (i : ℕ) : tableAt fmt m top (path ++ [i]) =
    (tableAt fmt m top path).bind fun t => fmt.follow m t i := by
  rw [tableAt, List.foldlM_append]
  exact congrArg _ (funext fun t => by simp)

/-- One more index. -/
theorem indices_concat : Indices (path ++ [i]) ↔ Indices path ∧ i < 512 := by
  simp [Indices, or_imp, forall_and]

/-- Entries of two pages, or two entries of one page, do not meet. -/
theorem slots_apart {s i j : ℕ} (hs : 4096 ∣ s) (ht : 4096 ∣ t) (hi : i < 512) (hj : j < 512)
    (hne : s ≠ t ∨ i ≠ j) : s + 8 * i + 8 ≤ t + 8 * j ∨ t + 8 * j + 8 ≤ s + 8 * i := by
  omega

/-- An entry that was written. -/
theorem tableEntry_store_same (h : v < 2 ^ 64) :
    tableEntry (storeLE m 8 (t + 8 * i) v) t i = v := by
  rw [tableEntry, loadLE_storeLE_same]
  exact Nat.mod_eq_of_lt h

/-- Writing an entry leaves the others. -/
theorem tableEntry_store_of_ne {s j : ℕ} (hs : 4096 ∣ s) (ht : 4096 ∣ t) (hi : i < 512)
    (hj : j < 512) (hne : s ≠ t ∨ j ≠ i) :
    tableEntry (storeLE m 8 (t + 8 * i) v) s j = tableEntry m s j := by
  apply loadLE_storeLE_of_disjoint
  exact slots_apart hs ht hj hi hne

/-- An empty table is a tree without entries. -/
theorem RadixTree.empty (depth : ℕ) (haligned : 4096 ∣ top)
    (hempty : ∀ i < 512, tableEntry m top i = 0) (hzero : fmt.present 0 = false) :
    RadixTree fmt m top depth {top} ∧
      ∀ path i, Indices path → i < 512 → entryAt fmt m top path i = 0 := by
  have hat : ∀ path, Indices path →
      tableAt fmt m top path = if path = [] then some top else none := by
    intro path hpath
    cases path with
    | nil => rw [tableAt_nil, if_pos rfl]
    | cons i path =>
      have hi := hpath i List.mem_cons_self
      rw [tableAt, List.foldlM_cons, EntryFormat.follow, hempty i hi, hzero]
      rfl
  refine ⟨⟨?_, ?_, ?_, ?_⟩, ?_⟩
  · intro t ht
    exact Set.mem_singleton_iff.1 ht ▸ haligned
  · intro path t _ hpath ht
    rw [hat path hpath] at ht
    exact Set.mem_singleton_iff.2 (Option.some.inj (Option.ite_none_right_eq_some.1 ht).2).symm
  · intro path path' t _ _ hpath hpath' ht ht'
    rw [hat path hpath] at ht
    rw [hat path' hpath'] at ht'
    exact (Option.ite_none_right_eq_some.1 ht).1.trans (Option.ite_none_right_eq_some.1 ht').1.symm
  · intro path t i _ hpath hi ht
    rw [hat path hpath] at ht
    obtain rfl := Option.some.inj (Option.ite_none_right_eq_some.1 ht).2
    exact .inr (hempty i hi)
  · intro path i hpath hi
    by_cases hnil : path = []
    · rw [entryAt_of_some ((hat path hpath).trans (if_pos hnil)), hempty i hi]
    · exact entryAt_of_none ((hat path hpath).trans (if_neg hnil))

/-- A tree is read from its pages only. -/
theorem RadixTree.tableAt_congr (h : RadixTree fmt m top depth pages)
    (hsame : ∀ t ∈ pages, ∀ i < 512, tableEntry m' t i = tableEntry m t i)
    (hlen : path.length ≤ depth) (hpath : Indices path) :
    tableAt fmt m' top path = tableAt fmt m top path := by
  induction path using List.reverseRecOn with
  | nil => rw [tableAt_nil, tableAt_nil]
  | append_singleton path j ih =>
    obtain ⟨hpath, hj⟩ := indices_concat.1 hpath
    rw [List.length_append, List.length_singleton] at hlen
    rw [tableAt_concat, tableAt_concat, ih (by omega) hpath]
    cases htable : tableAt fmt m top path with
    | none => rw [Option.bind_none, Option.bind_none]
    | some s =>
      simp only [Option.bind_some, EntryFormat.follow]
      rw [hsame s (h.owned path s (by omega) hpath htable) j hj]

/-- The entries of a tree depend on its tables only. -/
theorem RadixTree.entryAt_congr (h : RadixTree fmt m top depth pages)
    (hsame : ∀ t ∈ pages, ∀ i < 512, tableEntry m' t i = tableEntry m t i)
    (hlen : path.length ≤ depth) (hpath : Indices path) (hi : i < 512) :
    entryAt fmt m' top path i = entryAt fmt m top path i := by
  have hat := h.tableAt_congr hsame hlen hpath
  cases htable : tableAt fmt m top path with
  | none => rw [entryAt_of_none (hat.trans htable), entryAt_of_none htable]
  | some s =>
    rw [entryAt_of_some (hat.trans htable), entryAt_of_some htable]
    exact hsame s (h.owned path s hlen hpath htable) i hi

/-! ## Storing an entry of the last level -/

/-- The tables are found as before. -/
theorem RadixTree.tableAt_store (h : RadixTree fmt m top depth pages)
    (htable : tableAt fmt m top path = some t) (hlen : path.length = depth) (hpath : Indices path)
    (hi : i < 512) {path' : List ℕ} (hlen' : path'.length ≤ depth) (hpath' : Indices path') :
    tableAt fmt (storeLE m 8 (t + 8 * i) v) top path' = tableAt fmt m top path' := by
  induction path' using List.reverseRecOn with
  | nil => rw [tableAt_nil, tableAt_nil]
  | append_singleton path' j ih =>
    obtain ⟨hpath', hj⟩ := indices_concat.1 hpath'
    rw [List.length_append, List.length_singleton] at hlen'
    rw [tableAt_concat, tableAt_concat, ih (by omega) hpath']
    cases htable' : tableAt fmt m top path' with
    | none => rw [Option.bind_none, Option.bind_none]
    | some s =>
      have hne : s ≠ t := by
        rintro rfl
        have heq := h.unique path path' s hlen.le (by omega) hpath hpath' htable htable'
        rw [heq] at hlen
        omega
      have hs := h.aligned s (h.owned path' s (by omega) hpath' htable')
      have ht := h.aligned t (h.owned path t hlen.le hpath htable)
      simp only [Option.bind_some, EntryFormat.follow]
      rw [tableEntry_store_of_ne hs ht hi hj (.inl hne)]

/-- The tree is kept, and of the entries of the last level this one is changed. -/
theorem RadixTree.store (h : RadixTree fmt m top depth pages)
    (htable : tableAt fmt m top path = some t) (hlen : path.length = depth) (hpath : Indices path)
    (hi : i < 512) (hv : v < 2 ^ 64) :
    RadixTree fmt (storeLE m 8 (t + 8 * i) v) top depth pages ∧
      ∀ path' j, path'.length = depth → Indices path' → j < 512 →
        entryAt fmt (storeLE m 8 (t + 8 * i) v) top path' j =
          if path' = path ∧ j = i then v else entryAt fmt m top path' j := by
  have hsame := fun {path' : List ℕ} (hlen' : path'.length ≤ depth) hpath' =>
    @RadixTree.tableAt_store fmt m top depth t i v pages path h htable hlen hpath hi path' hlen' hpath'
  have ht := h.aligned t (h.owned path t hlen.le hpath htable)
  refine ⟨⟨h.aligned, ?_, ?_, ?_⟩, ?_⟩
  · intro path' s hlen' hpath' hs
    rw [hsame hlen' hpath'] at hs
    exact h.owned path' s hlen' hpath' hs
  · intro path₁ path₂ s hlen₁ hlen₂ hpath₁ hpath₂ hs₁ hs₂
    rw [hsame hlen₁ hpath₁] at hs₁
    rw [hsame hlen₂ hpath₂] at hs₂
    exact h.unique path₁ path₂ s hlen₁ hlen₂ hpath₁ hpath₂ hs₁ hs₂
  · intro path' s j hlen' hpath' hj hs
    rw [hsame hlen'.le hpath'] at hs
    have hne : s ≠ t := by
      rintro rfl
      have heq := h.unique path path' s hlen.le hlen'.le hpath hpath' htable hs
      rw [heq] at hlen
      omega
    rw [tableEntry_store_of_ne (h.aligned s (h.owned path' s hlen'.le hpath' hs)) ht hi hj (.inl hne)]
    exact h.clean path' s j hlen' hpath' hj hs
  · intro path' j hlen' hpath' hj
    have hat := hsame hlen'.le hpath'
    split
    case isTrue heq =>
      obtain ⟨rfl, rfl⟩ := heq
      rw [entryAt_of_some (hat.trans htable), tableEntry_store_same hv]
    case isFalse hne =>
      cases hs : tableAt fmt m top path' with
      | none => rw [entryAt_of_none (hat.trans hs), entryAt_of_none hs]
      | some s =>
        have hslot : s ≠ t ∨ j ≠ i := by
          by_contra hall
          push Not at hall
          obtain ⟨rfl, rfl⟩ := hall
          exact hne ⟨h.unique path' path s hlen'.le hlen.le hpath' hpath hs htable, rfl⟩
        rw [entryAt_of_some (hat.trans hs), entryAt_of_some hs]
        exact tableEntry_store_of_ne (h.aligned s (h.owned path' s hlen'.le hpath' hs)) ht hi hj hslot

/-! ## A new table -/

/-- A fresh page of zeros is hung into the tree. -/
structure Grown (fmt : EntryFormat) (m m' : Memory) (pages : Set ℕ) (t i fresh : ℕ) : Prop where
  aligned : 4096 ∣ fresh
  unused : fresh ∉ pages
  zero : ∀ j < 512, tableEntry m' fresh j = 0
  points : fmt.follow m' t i = some fresh
  frame : ∀ s ∈ pages, ∀ j < 512, s ≠ t ∨ j ≠ i → tableEntry m' s j = tableEntry m s j

variable {fresh : ℕ}

/-- Where the paths lead afterwards: to the new table, from there nowhere, and else as before. -/
theorem RadixTree.tableAt_grow (h : RadixTree fmt m top depth pages)
    (hgrown : Grown fmt m m' pages t i fresh) (hzero : fmt.present 0 = false)
    (htable : tableAt fmt m top path = some t) (hlen : path.length < depth) (hpath : Indices path)
    {path' : List ℕ} (hlen' : path'.length ≤ depth) (hpath' : Indices path') :
    tableAt fmt m' top path' = if path' = path ++ [i] then some fresh
      else if path ++ [i] <+: path' then none else tableAt fmt m top path' := by
  induction path' using List.reverseRecOn with
  | nil => rw [if_neg (by simp), if_neg (by simp), tableAt_nil, tableAt_nil]
  | append_singleton path' j ih =>
    obtain ⟨hpath', hj⟩ := indices_concat.1 hpath'
    rw [List.length_append, List.length_singleton] at hlen'
    rw [tableAt_concat, ih (by omega) hpath', tableAt_concat]
    by_cases hend : path' = path ++ [i]
    · subst hend
      rw [if_pos rfl, if_neg (fun heq => by simpa using congrArg List.length heq),
        if_pos (List.prefix_append _ _), Option.bind_some, EntryFormat.follow, hgrown.zero j hj, hzero]
      rfl
    · rw [if_neg hend]
      by_cases hbehind : path ++ [i] <+: path'
      · rw [if_pos hbehind, if_neg, if_pos (hbehind.trans (List.prefix_append _ _))]
        · rfl
        · rintro heq
          have hle := hbehind.length_le
          have hlen := congrArg List.length heq
          simp only [List.length_append, List.length_singleton] at hle hlen
          omega
      · rw [if_neg hbehind]
        by_cases hhere : path' ++ [j] = path ++ [i]
        · obtain ⟨rfl, hji⟩ := List.append_inj' hhere rfl
          obtain rfl := List.singleton_inj.1 hji
          rw [if_pos rfl, htable, Option.bind_some]
          exact hgrown.points
        · rw [if_neg hhere, if_neg]
          · cases hs : tableAt fmt m top path' with
            | none => rw [Option.bind_none, Option.bind_none]
            | some s =>
              have hslot : s ≠ t ∨ j ≠ i := by
                by_contra hall
                push Not at hall
                obtain ⟨rfl, rfl⟩ := hall
                have heq := h.unique path' path s (by omega) hlen.le hpath' hpath hs htable
                exact hhere (heq ▸ rfl)
              simp only [Option.bind_some, EntryFormat.follow]
              rw [hgrown.frame s (h.owned path' s (by omega) hpath' hs) j hj hslot]
          · intro hprefix
            rcases List.prefix_concat_iff.1 hprefix with heq | hprefix
            · exact hhere heq.symm
            · exact hbehind hprefix

/-- The tree with the new table. No entry of the last level changes. -/
theorem RadixTree.grow (h : RadixTree fmt m top depth pages)
    (hgrown : Grown fmt m m' pages t i fresh) (hzero : fmt.present 0 = false)
    (htable : tableAt fmt m top path = some t) (hlen : path.length < depth) (hpath : Indices path)
    (hi : i < 512) (hempty : fmt.present (tableEntry m t i) = false) :
    RadixTree fmt m' top depth (insert fresh pages) ∧
      tableAt fmt m' top (path ++ [i]) = some fresh ∧
      ∀ path' j, path'.length = depth → Indices path' → j < 512 →
        entryAt fmt m' top path' j = entryAt fmt m top path' j := by
  have hat := fun {path' : List ℕ} (hlen' : path'.length ≤ depth) hpath' =>
    @RadixTree.tableAt_grow fmt m m' top depth t i pages path fresh h hgrown hzero htable hlen hpath
      path' hlen' hpath'
  have hlen₀ : (path ++ [i]).length ≤ depth := by simp; omega
  have hpath₀ : Indices (path ++ [i]) := indices_concat.2 ⟨hpath, hi⟩
  have hnew : tableAt fmt m' top (path ++ [i]) = some fresh := by rw [hat hlen₀ hpath₀, if_pos rfl]
  -- the paths through the new slot led nowhere
  have hold : ∀ path', path ++ [i] <+: path' → tableAt fmt m top path' = none := by
    rintro _ ⟨rest, rfl⟩
    rw [tableAt, List.foldlM_append, ← tableAt, tableAt_concat, htable, Option.bind_some,
      EntryFormat.follow, hempty]
    rfl
  -- a table other than the new one was there before
  have hback : ∀ path' s, path'.length ≤ depth → Indices path' → tableAt fmt m' top path' = some s →
      path' = path ++ [i] ∧ s = fresh ∨ tableAt fmt m top path' = some s ∧ s ∈ pages := by
    intro path' s hlen' hpath' hs
    rw [hat hlen' hpath'] at hs
    split at hs
    case isTrue heq => exact .inl ⟨heq, (Option.some.inj hs).symm⟩
    case isFalse =>
      split at hs
      · cases hs
      · exact .inr ⟨hs, h.owned path' s hlen' hpath' hs⟩
  refine ⟨⟨?_, ?_, ?_, ?_⟩, hnew, ?_⟩
  · intro s hs
    rcases hs with rfl | hs
    · exact hgrown.aligned
    · exact h.aligned s hs
  · intro path' s hlen' hpath' hs
    rcases hback path' s hlen' hpath' hs with ⟨-, rfl⟩ | ⟨-, hs⟩
    · exact Set.mem_insert _ _
    · exact Set.mem_insert_of_mem _ hs
  · intro path₁ path₂ s hlen₁ hlen₂ hpath₁ hpath₂ hs₁ hs₂
    rcases hback path₁ s hlen₁ hpath₁ hs₁ with ⟨heq₁, hfresh₁⟩ | ⟨hs₁, hmem₁⟩ <;>
      rcases hback path₂ s hlen₂ hpath₂ hs₂ with ⟨heq₂, hfresh₂⟩ | ⟨hs₂, hmem₂⟩
    · exact heq₁.trans heq₂.symm
    · exact absurd (hfresh₁ ▸ hmem₂) hgrown.unused
    · exact absurd (hfresh₂ ▸ hmem₁) hgrown.unused
    · exact h.unique path₁ path₂ s hlen₁ hlen₂ hpath₁ hpath₂ hs₁ hs₂
  · intro path' s j hlen' hpath' hj hs
    rcases hback path' s hlen'.le hpath' hs with ⟨-, rfl⟩ | ⟨hs, hmem⟩
    · exact .inr (hgrown.zero j hj)
    · by_cases hslot : s ≠ t ∨ j ≠ i
      · rw [hgrown.frame s hmem j hj hslot]
        exact h.clean path' s j hlen' hpath' hj hs
      · push Not at hslot
        obtain ⟨rfl, rfl⟩ := hslot
        have hpoints := hgrown.points
        rw [EntryFormat.follow] at hpoints
        exact .inl (Option.ite_none_right_eq_some.1 hpoints).1
  · intro path' j hlen' hpath' hj
    have hnow := hat hlen'.le hpath'
    split at hnow
    case isTrue heq =>
      rw [entryAt_of_some hnow, hgrown.zero j hj,
        entryAt_of_none (hold path' (heq ▸ List.prefix_rfl))]
    case isFalse =>
      split at hnow
      case isTrue hprefix => rw [entryAt_of_none hnow, entryAt_of_none (hold path' hprefix)]
      case isFalse =>
        cases hs : tableAt fmt m top path' with
        | none => rw [entryAt_of_none (hnow.trans hs), entryAt_of_none hs]
        | some s =>
          have hslot : s ≠ t := by
            rintro rfl
            have heq := h.unique path' path s hlen'.le hlen.le hpath' hpath hs htable
            rw [heq] at hlen'
            omega
          rw [entryAt_of_some (hnow.trans hs), entryAt_of_some hs]
          exact hgrown.frame s (h.owned path' s hlen'.le hpath' hs) j hj (.inl hslot)

end Orionis.Foundations
