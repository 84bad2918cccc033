import Orionis.Limine.Sanitise

/-!
# Ranges taken out of the memory map

`memmap_alloc_range` replaces a usable entry by what is left of it and the range, and
`ext_mem_alloc_aligned_type` takes its range off the top of the highest entry below 4 GiB that has
room. The range was usable before, and no usable entry meets it afterwards.
-/

namespace Orionis.Limine

open Orionis.Foundations Orionis.Mem

/-- The entries that replace a usable entry lie inside it and do not meet each other. They are settled
with the other entries, whatever their types are. -/
theorem settled_pieces {e : MmapEntry} {others pieces : List MmapEntry}
    (h : (e :: others).Pairwise Settled) (he : e.Usable) (hin : ∀ p ∈ pieces, Within p e)
    (hclear : pieces.Pairwise Clear) : (pieces ++ others).Pairwise Settled := by
  obtain ⟨hhead, htail⟩ := List.pairwise_cons.1 h
  refine List.pairwise_append.2 ⟨hclear.imp fun hc => ⟨fun _ => .inl hc, fun _ => .inl hc.symm⟩,
    htail, fun p hp x hx => ?_⟩
  have hex := hhead x hx
  refine ⟨fun _ => (hex.1 he).within (hin p hp), fun hxuse => .inl ?_⟩
  exact ((hex.clear he hxuse).within (hin p hp)).symm

/-- What `memmap_alloc_range` makes of the table. -/
structure RangeTaken (memmap memmap' : List MmapEntry) (range : MmapEntry) : Prop where
  inside : ∃ e ∈ memmap, e.Usable ∧ Within range e
  parts : ∀ r ∈ memmap', ∃ e ∈ memmap, Within r e
  shrinks : Shrinks memmap memmap'
  clear : ∀ u ∈ memmap', u.Usable → Clear u range
  bounded : ∀ e ∈ memmap', Bounded e
  settled : memmap'.Pairwise Settled

/-- The loop takes the range out of the first usable entry that has all of it. -/
theorem allocRangeFrom_spec {base length type : ℕ} {done rest memmap' : List MmapEntry}
    (hbound : ∀ e ∈ done ++ rest, Bounded e) (hsettled : (done ++ rest).Pairwise Settled)
    (hrange : base + length < 2 ^ 64) (htype : type ≠ memmapUsable)
    (h : allocRangeFrom base length type done rest = .ok memmap') :
    RangeTaken (done ++ rest) memmap' ⟨base, length, type⟩ := by
  induction rest generalizing done with
  | nil => cases h
  | cons e rest ih =>
    rw [allocRangeFrom, add64_of_lt hrange] at h
    have hbe : Bounded e := hbound e (List.mem_append_right _ List.mem_cons_self)
    rw [entryTop_eq hbe] at h
    dsimp only at h
    split at h
    case isFalse =>
      have happend : done ++ e :: rest = (done ++ [e]) ++ rest := by simp
      rw [happend] at hbound hsettled ⊢
      exact ih hbound hsettled h
    case isTrue hfits =>
      obtain ⟨huse, ⟨hlo, -⟩, -, htop⟩ := hfits
      set lower : MmapEntry := { e with length := base - e.base } with hlower
      set upper : MmapEntry :=
        ⟨base + length, e.base + e.length - (base + length), memmapUsable⟩ with hupper
      set range : MmapEntry := ⟨base, length, type⟩ with hrangeDef
      have hperm : (done ++ e :: rest).Perm (e :: (done ++ rest)) := List.perm_middle
      -- the pieces of the entry, an empty one left out
      set lows := if lower.length = 0 then [] else [lower] with hlows
      set ups := if e.base + e.length - (base + length) ≠ 0 then [upper] else [] with hups
      have hmemmap : memmap'.Perm ((lows ++ ups ++ [range]) ++ (done ++ rest)) := by
        split at h
        · cases h
        have hjoin : (if e.base + e.length - (base + length) ≠ 0 then
            done ++ lows ++ rest ++ [upper] else done ++ lows ++ rest) =
              done ++ lows ++ rest ++ ups := by
          rw [hups]
          split <;> simp
        rw [hjoin] at h
        split at h
        · cases h
        obtain rfl := Except.ok.inj h
        rw [List.perm_iff_count]
        intro x
        simp only [List.count_append]
        omega
      have hin : ∀ p ∈ lows ++ ups ++ [range], Within p e := by
        intro p hp
        simp only [hlows, hups, List.mem_append, List.mem_ite_nil_left, List.mem_ite_nil_right,
          List.mem_singleton] at hp
        rcases hp with (⟨-, rfl⟩ | ⟨-, rfl⟩) | rfl <;> simp only [Within, hlower, hupper, hrangeDef] <;>
          omega
      have hclear : (lows ++ ups ++ [range]).Pairwise Clear := by
        have hparts : Clear lower upper ∧ Clear lower range ∧ Clear upper range := by
          simp only [Clear, hlower, hupper, hrangeDef]
          omega
        rw [hlows, hups]
        split_ifs <;> simp [hparts]
      have hnew := settled_pieces (hperm.pairwise hsettled Settled.symm) huse hin hclear
      refine ⟨⟨e, List.mem_append_right _ List.mem_cons_self, huse, ?_⟩, ?_, ?_, ?_, ?_, ?_⟩
      · exact hin range (by simp)
      · intro r hr
        rcases List.mem_append.1 (hmemmap.mem_iff.1 hr) with hr | hr
        · exact ⟨e, List.mem_append_right _ List.mem_cons_self, hin r hr⟩
        · exact ⟨r, hperm.mem_iff.2 (List.mem_cons_of_mem _ hr), .refl r⟩
      · intro u hu huse'
        rcases List.mem_append.1 (hmemmap.mem_iff.1 hu) with hu | hu
        · exact ⟨e, List.mem_append_right _ List.mem_cons_self, huse, hin u hu⟩
        · refine ⟨u, ?_, huse', .refl u⟩
          exact hperm.mem_iff.2 (List.mem_cons_of_mem _ hu)
      · intro u hu huse'
        rcases List.mem_append.1 (hmemmap.mem_iff.1 hu) with hu | hu
        · rcases List.mem_append.1 hu with hu | hu
          · exact (List.pairwise_append.1 hclear).2.2 u hu range List.mem_cons_self
          · obtain rfl := List.mem_singleton.1 hu
            exact absurd huse' htype
        · have heu := (List.pairwise_cons.1 (hperm.pairwise hsettled Settled.symm)).1 u hu
          exact ((heu.clear huse huse').within (hin range (by simp))).symm
      · intro x hx
        rcases List.mem_append.1 (hmemmap.mem_iff.1 hx) with hx | hx
        · exact (hin x hx).2.trans_lt hbe
        · exact hbound x (hperm.mem_iff.2 (List.mem_cons_of_mem _ hx))
      · exact (hmemmap.pairwise_iff Settled.symm).2 hnew

/-- `memmap_alloc_range` takes the range out of the table. -/
theorem memmapAllocRange_spec {base length type : ℕ} {memmap memmap' : List MmapEntry}
    (hbound : ∀ e ∈ memmap, Bounded e) (hsettled : memmap.Pairwise Settled)
    (hrange : base + length < 2 ^ 64) (htype : type ≠ memmapUsable)
    (h : memmapAllocRange memmap base length type = .ok memmap') :
    RangeTaken memmap memmap' ⟨base, length, type⟩ :=
  @allocRangeFrom_spec base length type [] memmap memmap' hbound hsettled hrange htype h

/-- Taking a range leaves the table below its limit. -/
theorem RangeTaken.below {limit : ℕ} {memmap table : List MmapEntry} {range : MmapEntry}
    (h : RangeTaken memmap table range) (hbelow : Below limit memmap) : Below limit table := by
  intro r hr
  obtain ⟨e, he, hin⟩ := h.parts r hr
  exact hin.2.trans (hbelow e he)

/-! ## The allocator -/

/-- A 64-bit number is its own conversion. -/
theorem ofInt64_natCast {n : ℕ} (h : n < 2 ^ 64) : ofInt64 n = n := by
  rw [ofInt64]
  omega

/-- Without its highest bit a number is not negative. -/
theorem toInt64_of_lt {n : ℕ} (h : n < 2 ^ 63) : toInt64 n = n := if_pos h

/-- A positive address rounded towards zero is rounded down. -/
theorem tdiv_mul_pos {z : ℤ} {a : ℕ} (h : 0 < z.tdiv a * a) :
    ∃ n : ℕ, z = n ∧ z.tdiv a * a = (n / a * a : ℕ) := by
  rcases Int.lt_or_le z 0 with hneg | hpos
  · exfalso
    obtain ⟨n, rfl⟩ := Int.exists_eq_neg_ofNat hneg.le
    rw [Int.neg_tdiv, neg_mul] at h
    have hnonneg : (0 : ℤ) ≤ (n : ℤ).tdiv a * a :=
      Int.mul_nonneg (Int.tdiv_nonneg (Int.natCast_nonneg n) (Int.natCast_nonneg a))
        (Int.natCast_nonneg a)
    omega
  · obtain ⟨n, rfl⟩ := Int.eq_ofNat_of_zero_le hpos
    refine ⟨n, rfl, ?_⟩
    rw [Int.tdiv_eq_ediv_of_nonneg hpos]
    push_cast
    rfl

/-- The range found ends with a usable entry below 4 GiB and holds the bytes asked for. -/
theorem findExt_spec {count alignment base length : ℕ} {entries : List MmapEntry}
    (hbound : ∀ e ∈ entries, Bounded e) (hpos : ∀ u ∈ entries, u.Usable → 0 < u.base)
    (h : findExt count alignment entries = some (base, length)) :
    ∃ e ∈ entries, e.Usable ∧ e.base ≤ base ∧ base + length = e.base + e.length ∧
      base + length < 2 ^ 32 ∧ count ≤ length ∧ alignment ∣ base := by
  induction entries with
  | nil => cases h
  | cons e entries ih =>
    have hbe := hbound e List.mem_cons_self
    have hnext : findExt count alignment entries = some (base, length) → ∃ f ∈ e :: entries,
        f.Usable ∧ f.base ≤ base ∧ base + length = f.base + f.length ∧ base + length < 2 ^ 32 ∧
          count ≤ length ∧ alignment ∣ base := by
      intro hrest
      obtain ⟨f, hf, hspec⟩ := ih (fun r hr => hbound r (List.mem_cons_of_mem _ hr))
        (fun u hu => hpos u (List.mem_cons_of_mem _ hu)) hrest
      exact ⟨f, List.mem_cons_of_mem _ hf, hspec⟩
    have hbe' : e.base + e.length < 2 ^ 63 := hbe
    rw [findExt, entryTop_eq hbe, toInt64_of_lt (by omega), toInt64_of_lt hbe'] at h
    split at h
    · exact hnext h
    rename_i htype
    have huse : e.Usable := not_not.1 htype
    have hbase := hpos e List.mem_cons_self huse
    split at h
    · exact hnext h
    rename_i hlow
    push Not at hlow
    split at h
    · exact hnext h
    rename_i hroom
    obtain ⟨n, hn, hdown⟩ := @tdiv_mul_pos (((e.base + e.length : ℕ) : ℤ) - count) alignment (by omega)
    rw [hdown] at h hroom
    have hle := Nat.div_mul_le_self n alignment
    have hdvd : alignment ∣ n / alignment * alignment := Nat.dvd_mul_left _ _
    generalize n / alignment * alignment = allocBase at h hroom hle hdvd
    have hsub : ((e.base + e.length : ℕ) : ℤ) - (allocBase : ℕ) =
        ((e.base + e.length - allocBase : ℕ) : ℤ) := by omega
    rw [hsub, ofInt64_natCast (by omega), ofInt64_natCast (by omega)] at h
    obtain ⟨rfl, rfl⟩ := Prod.mk.inj (Option.some.inj h)
    exact ⟨e, List.mem_cons_self, huse, by omega, by omega, by omega, by omega, hdvd⟩

/-- An allocation takes out a range below 4 GiB, returns its aligned first address, clears it and
sanitises the table. -/
theorem extMemAllocAlignedType_spec {s s' : Boot} {count alignment type ret : ℕ}
    (hbound : ∀ e ∈ s.memmap, Bounded e) (hpos : ∀ u ∈ s.memmap, u.Usable → 0 < u.base)
    (hsettled : s.memmap.Pairwise Settled) (htype : type ≠ memmapUsable)
    (h : extMemAllocAlignedType s count alignment type = .ok (ret, s')) :
    ∃ length memmap, RangeTaken s.memmap memmap ⟨ret, length, type⟩ ∧ count ≤ length ∧
      ret + length < 2 ^ 32 ∧ alignment ∣ ret ∧ sanitiseEntries memmap = .ok s'.memmap ∧
      s'.mem = memsetZero s.mem ret count := by
  rw [extMemAllocAlignedType] at h
  split at h
  · cases h
  rename_i base length hfind
  obtain ⟨memmap, hrange, h⟩ := bind_eq_ok.1 h
  obtain ⟨table, hsane, h⟩ := bind_eq_ok.1 h
  obtain ⟨rfl, rfl⟩ := Prod.mk.inj (Except.ok.inj h)
  obtain ⟨e, he, huse, hlo, htop, hlow, hcount, hdvd⟩ := findExt_spec
    (fun e he => hbound e (List.mem_reverse.1 he)) (fun u hu => hpos u (List.mem_reverse.1 hu)) hfind
  rw [Nat.mod_eq_of_lt (show base < 2 ^ 32 by omega)]
  exact ⟨length, memmap, memmapAllocRange_spec hbound hsettled (by omega) htype hrange, hcount, hlow,
    hdvd, hsane, rfl⟩

end Orionis.Limine
