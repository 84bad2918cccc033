import Mathlib.Data.List.Pairwise
import Mathlib.Order.Interval.Set.Disjoint
import Orionis.Limine.Memmap

/-!
# What sanitising does

After `sanitise_entries` the usable entries are whole pages from 1 MiB on, disjoint from each other,
and lie inside usable entries from before. They meet another entry only where it covers all of them
and begins below: this is the one overlap the cuts do not see.
-/

namespace Orionis.Limine

open Orionis.Foundations Orionis.Mem

/-! ## Relations of two entries -/

/-- One entry lies inside another. -/
def Within (e f : MmapEntry) : Prop := f.base ≤ e.base ∧ e.base + e.length ≤ f.base + f.length

/-- No byte is in both. -/
def Clear (e f : MmapEntry) : Prop :=
  e.length = 0 ∨ f.length = 0 ∨ e.base + e.length ≤ f.base ∨ f.base + f.length ≤ e.base

/-- A usable entry does not meet another one, or lies inside it above its first byte. -/
def Apart (u r : MmapEntry) : Prop := Clear u r ∨ r.base < u.base ∧ Within u r

/-- Entries are clear of each other when they share no byte. -/
theorem clear_iff {e f : MmapEntry} : Clear e f ↔ Disjoint e.bytes f.bytes := by
  rw [MmapEntry.bytes, MmapEntry.bytes, Set.Ico_disjoint_Ico, Clear]
  omega

/-- Being clear of each other is symmetric. -/
theorem Clear.symm {e f : MmapEntry} (h : Clear e f) : Clear f e := by
  rw [Clear] at *
  omega

/-- An entry lies inside itself. -/
theorem Within.refl (e : MmapEntry) : Within e e := ⟨le_rfl, le_rfl⟩

/-- Entries inside entries inside an entry. -/
theorem Within.trans {e f g : MmapEntry} (h : Within e f) (h' : Within f g) : Within e g :=
  ⟨h'.1.trans h.1, h.2.trans h'.2⟩

/-- A byte of an inner entry is one of the outer one. -/
theorem Within.mem_bytes {e f : MmapEntry} (h : Within e f) {x : ℕ} (hx : x ∈ e.bytes) :
    x ∈ f.bytes := by
  rw [MmapEntry.mem_bytes] at *
  exact ⟨h.1.trans hx.1, hx.2.trans_le h.2⟩

/-- Parts of an entry stay clear. -/
theorem Clear.within {e f g : MmapEntry} (h : Clear e g) (hin : Within f e) : Clear f g := by
  simp only [Clear, Within] at *
  omega

/-- Parts of an entry stay apart. -/
theorem Apart.within {u v r : MmapEntry} (h : Apart u r) (hin : Within v u) : Apart v r := by
  rcases h with hclear | ⟨hlt, hcovers⟩
  · exact .inl (hclear.within hin)
  · exact .inr ⟨hlt.trans_le hin.1, hin.trans hcovers⟩

/-- Two entries that abut keep away from an entry together. -/
theorem Apart.join {u e f : MmapEntry} {n : ℕ} (he : Apart u e) (hf : Apart u f)
    (habut : f.base = e.base + e.length) (hn : n = e.length + f.length) :
    Apart u { e with length := n } := by
  simp only [Apart, Clear, Within] at *
  omega

/-- Both entries are apart from the other one where they are usable. -/
def Settled (e f : MmapEntry) : Prop := (e.Usable → Apart e f) ∧ (f.Usable → Apart f e)

/-- Being settled is symmetric. -/
theorem Settled.symm {e f : MmapEntry} (h : Settled e f) : Settled f e := ⟨h.2, h.1⟩

instance : Std.Symm Settled := ⟨fun _ _ => Settled.symm⟩

/-- Two usable entries cannot lie inside each other. -/
theorem Settled.clear {e f : MmapEntry} (h : Settled e f) (he : e.Usable) (hf : f.Usable) :
    Clear e f := by
  have hef := h.1 he
  have hfe := h.2 hf
  simp only [Apart, Clear, Within] at *
  omega

/-! ## 64-bit arithmetic -/

/-- A sum below `2 ^ 64` does not wrap. -/
theorem add64_of_lt {x y : ℕ} (h : x + y < 2 ^ 64) : add64 x y = x + y := Nat.mod_eq_of_lt h

/-- A difference of a number and a smaller one does not wrap. -/
theorem sub64_of_le {x y : ℕ} (h : y ≤ x) (hx : x < 2 ^ 64) : sub64 x y = x - y := by
  rw [sub64, Nat.sub_add_comm h, Nat.add_mod_right, Nat.mod_eq_of_lt (by omega)]

/-- Entries end below `2 ^ 63`. -/
def Bounded (e : MmapEntry) : Prop := e.base + e.length < 2 ^ 63

/-- Whole pages from 1 MiB on. -/
def Whole (e : MmapEntry) : Prop :=
  pageSize ∣ e.base ∧ pageSize ∣ e.length ∧ memmapBase ≤ e.base

/-- The end of a bounded entry does not wrap. -/
theorem entryTop_eq {e : MmapEntry} (h : Bounded e) : entryTop e = e.base + e.length :=
  add64_of_lt (h.trans (by decide))

/-- A call behind another one returns when both do. -/
theorem bind_eq_ok {ε α β : Type*} {x : Except ε α} {f : α → Except ε β} {b : β} :
    x.bind f = .ok b ↔ ∃ a, x = .ok a ∧ f a = .ok b := by
  cases x with
  | error e => exact ⟨fun h => (by cases h), fun ⟨a, ha, _⟩ => (by cases ha)⟩
  | ok a => exact ⟨fun h => ⟨a, rfl, h⟩, fun ⟨b, hb, hf⟩ => Except.ok.inj hb ▸ hf⟩

/-! ## Cutting one entry -/

/-- Trimming leaves a part of the entry apart from the other one. Its base is moved to the end of
the other one at most. -/
theorem trimEntry_spec {e res e' : MmapEntry} (he : Bounded e)
    (hres : Bounded res) (h : trimEntry e res = .ok e') :
    Within e' e ∧ e'.type = e.type ∧ Apart e' res ∧
      (e'.base = e.base ∨ res.base < e.base ∧ e'.base = res.base + res.length) := by
  rw [trimEntry, entryTop_eq he, entryTop_eq hres] at h
  rw [Bounded] at he hres
  dsimp only at h
  split at h
  · cases h
  rename_i hpanic
  obtain rfl := Except.ok.inj h
  have hlen : ∀ top base, base ≤ top → top < 2 ^ 63 → sub64 top base = top - base :=
    fun top base hle hlt => sub64_of_le hle (hlt.trans (by decide))
  simp only [Within, Apart, Clear]
  split_ifs at * with hlow hhigh hhigh <;> rw [hlen _ _ (by omega) (by omega)] <;>
    exact ⟨by omega, trivial, by omega, by omega⟩

/-- Trimmed against all the others, an entry is apart from each of them. -/
theorem trimAll_spec {others : List MmapEntry} {e e' : MmapEntry} (he : Bounded e)
    (hothers : ∀ r ∈ others, Bounded r) (h : others.foldlM trimEntry e = .ok e') :
    Within e' e ∧ e'.type = e.type ∧ ∀ r ∈ others, Apart e' r := by
  induction others generalizing e with
  | nil =>
    obtain rfl := Except.ok.inj h
    exact ⟨.refl _, rfl, fun r hr => absurd hr List.not_mem_nil⟩
  | cons r others ih =>
    rw [List.foldlM_cons] at h
    obtain ⟨f, hf, hrest⟩ := bind_eq_ok.1 h
    obtain ⟨hin, htype, hapart, -⟩ := trimEntry_spec he (hothers r List.mem_cons_self) hf
    have hbound : Bounded f := hin.2.trans_lt he
    obtain ⟨hin', htype', hall⟩ := ih hbound (fun r hr => hothers r (List.mem_cons_of_mem _ hr)) hrest
    refine ⟨hin'.trans hin, htype'.trans htype, fun s hs => ?_⟩
    cases List.mem_cons.1 hs with
    | inl heq => exact heq ▸ hapart.within hin'
    | inr hs => exact hall s hs

/-- The cut entry also ends or begins where the others allow it: it does not begin inside an entry
that keeps apart from all that cut it. -/
theorem trimAll_base {others : List MmapEntry} {u e e' : MmapEntry} (he : Bounded e)
    (hothers : ∀ r ∈ others, Bounded r) (hu : ∀ r ∈ others, r = u ∨ Apart u r)
    (hbase : e.base ≤ u.base ∨ u.base + u.length ≤ e.base)
    (h : others.foldlM trimEntry e = .ok e') :
    e'.base ≤ u.base ∨ u.base + u.length ≤ e'.base := by
  induction others generalizing e with
  | nil => exact Except.ok.inj h ▸ hbase
  | cons r others ih =>
    rw [List.foldlM_cons] at h
    obtain ⟨f, hf, hrest⟩ := bind_eq_ok.1 h
    obtain ⟨hin, -, -, hmoved⟩ := trimEntry_spec he (hothers r List.mem_cons_self) hf
    refine ih (hin.2.trans_lt he) (fun r hr => hothers r (List.mem_cons_of_mem _ hr))
      (fun r hr => hu r (List.mem_cons_of_mem _ hr)) ?_ hrest
    rcases hmoved with hsame | ⟨hbelow, hmoved⟩
    · rwa [hsame]
    · rcases hu r List.mem_cons_self with rfl | hapart
      · exact .inr hmoved.ge
      · -- the base moved to the end of an entry from below, past `u` or not as far as `u`
        have hle := hin.1
        simp only [Apart, Clear, Within] at hapart
        omega

/-- An entry that is settled with the others stays clear of what their cuts leave of another. -/
theorem Apart.clear_trimAll {others : List MmapEntry} {u e e' : MmapEntry}
    (he : Bounded e) (hothers : ∀ r ∈ others, Bounded r)
    (hu : ∀ r ∈ others, r = u ∨ Apart u r) (hmem : u ∈ others) (hapart : Apart u e)
    (h : others.foldlM trimEntry e = .ok e') : Clear u e' := by
  obtain ⟨hin, -, hall⟩ := trimAll_spec he hothers h
  rcases hapart with hclear | ⟨hbelow, -⟩
  · exact (hclear.symm.within hin).symm
  · have hbase := trimAll_base he hothers hu (.inl hbelow.le) h
    have hcut := hall u hmem
    simp only [Apart, Clear, Within] at *
    omega

/-- Aligning down leads to no greater number. -/
theorem alignDown_le (x a : ℕ) : alignDown x a ≤ x := Nat.div_mul_le_self x a

/-- A number aligned down is a multiple. -/
theorem dvd_alignDown (x a : ℕ) : a ∣ alignDown x a := Nat.dvd_mul_left a _

/-- Rounding up to a page. -/
theorem alignUp_page {x : ℕ} (h : x < 2 ^ 63) :
    x ≤ alignUp x pageSize ∧ alignUp x pageSize < x + pageSize ∧ pageSize ∣ alignUp x pageSize := by
  rw [alignUp, add64_of_lt (by rw [pageSize]; omega)]
  refine ⟨?_, ?_, Nat.dvd_mul_left _ _⟩ <;> simp only [pageSize] <;> omega

/-- Aligning leaves whole pages of the entry from 1 MiB on. -/
theorem alignEntry_spec {base length b l : ℕ} (hbound : base + length < 2 ^ 63)
    (h : alignEntry base length = some (b, l)) :
    base ≤ b ∧ b + l ≤ base + length ∧ pageSize ∣ b ∧ pageSize ∣ l ∧ memmapBase ≤ b := by
  obtain ⟨hle, hlt, hdvd⟩ := @alignUp_page base (by omega)
  rw [alignEntry] at h
  generalize alignUp base pageSize = up at hle hlt hdvd h
  split at h
  · cases h
  rename_i hlong
  simp only [pageSize] at hlt hlong hdvd
  dsimp only at h
  rw [sub64_of_le hle (by omega), sub64_of_le (by omega) (by omega)] at h
  have hcut := alignDown_le (length - (up - base)) pageSize
  have hdvd' := dvd_alignDown (length - (up - base)) pageSize
  generalize alignDown (length - (up - base)) pageSize = down at hcut hdvd' h
  rw [add64_of_lt (by omega)] at h
  simp only [pageSize] at hdvd' ⊢
  split_ifs at h with hlow htop
  all_goals
    obtain ⟨rfl, rfl⟩ := Prod.mk.inj (Option.some.inj h)
    rw [memmapBase] at *
  · rw [sub64_of_le (by omega) (by omega)]
    omega
  · omega

/-- An entry that is kept is one of whole pages inside the old one. -/
theorem keepEntry_spec {e e' : MmapEntry} (hbound : Bounded e)
    (h : keepEntry e = some e') : Within e' e ∧ e'.type = e.type ∧ Whole e' := by
  rw [keepEntry] at h
  split at h
  · cases h
  · obtain ⟨⟨b, l⟩, hr, rfl⟩ := Option.map_eq_some_iff.1 h
    obtain ⟨hlo, hhi, hbase, hlength, hmin⟩ := alignEntry_spec hbound hr
    exact ⟨⟨hlo, hhi⟩, rfl, hbase, hlength, hmin⟩

/-! ## The loop over the table -/

/-- The entries behind the loop are settled with each other and apart from the ones ahead. -/
structure Trimmed (done rest : List MmapEntry) : Prop where
  bounded : ∀ e ∈ done ++ rest, Bounded e
  whole : ∀ u ∈ done, u.Usable → Whole u
  settled : done.Pairwise Settled
  ahead : ∀ u ∈ done, u.Usable → ∀ e ∈ rest, Apart u e

variable {done rest : List MmapEntry} {e : MmapEntry}

/-- An entry that is not usable is passed. -/
theorem Trimmed.skip (h : Trimmed done (e :: rest)) (he : ¬ e.Usable) :
    Trimmed (done ++ [e]) rest := by
  refine ⟨?_, ?_, ?_, ?_⟩
  · rw [List.append_assoc]
    exact h.bounded
  · intro u hu huse
    rcases List.mem_append.1 hu with hu | hu
    · exact h.whole u hu huse
    · exact absurd (List.mem_singleton.1 hu ▸ huse) he
  · refine List.pairwise_append.2 ⟨h.settled, List.pairwise_singleton _ _, fun u hu f hf => ?_⟩
    obtain rfl := List.mem_singleton.1 hf
    exact ⟨fun huse => h.ahead u hu huse f List.mem_cons_self, fun hf => absurd hf he⟩
  · intro u hu huse f hf
    rcases List.mem_append.1 hu with hu | hu
    · exact h.ahead u hu huse f (List.mem_cons_of_mem _ hf)
    · exact absurd (List.mem_singleton.1 hu ▸ huse) he

/-- A usable entry is dropped. -/
theorem Trimmed.drop (h : Trimmed done (e :: rest)) : Trimmed done rest where
  bounded f hf := h.bounded f (by
    rcases List.mem_append.1 hf with hf | hf
    · exact List.mem_append_left _ hf
    · exact List.mem_append_right _ (List.mem_cons_of_mem _ hf))
  whole := h.whole
  settled := h.settled
  ahead u hu huse f hf := h.ahead u hu huse f (List.mem_cons_of_mem _ hf)

/-- Once it has been cut against all the others, an entry joins the ones behind the loop. -/
theorem Trimmed.keep (h : Trimmed done (e :: rest)) {f g : MmapEntry}
    (hcut : (done ++ rest).foldlM trimEntry e = .ok f) (hkeep : keepEntry f = some g) :
    Trimmed (done ++ [g]) rest ∧ Within g e := by
  have he := h.bounded e (List.mem_append_right _ List.mem_cons_self)
  have hothers := h.drop.bounded
  obtain ⟨hfe, htype, hall⟩ := trimAll_spec he hothers hcut
  obtain ⟨hgf, htype', hwhole⟩ := keepEntry_spec (hfe.2.trans_lt he) hkeep
  have hapart : ∀ r ∈ done ++ rest, Apart g r := fun r hr => (hall r hr).within hgf
  refine ⟨⟨?_, ?_, ?_, ?_⟩, hgf.trans hfe⟩
  · intro r hr
    rw [List.append_assoc] at hr
    rcases List.mem_append.1 hr with hr | hr
    · exact hothers r (List.mem_append_left _ hr)
    · rcases List.mem_cons.1 hr with rfl | hr
      · exact (hgf.trans hfe).2.trans_lt he
      · exact hothers r (List.mem_append_right _ hr)
  · intro u hu huse
    rcases List.mem_append.1 hu with hu | hu
    · exact h.whole u hu huse
    · exact List.mem_singleton.1 hu ▸ hwhole
  · refine List.pairwise_append.2 ⟨h.settled, List.pairwise_singleton _ _, fun u hu v hv => ?_⟩
    obtain rfl := List.mem_singleton.1 hv
    refine ⟨fun huse => .inl ?_, fun _ => hapart u (List.mem_append_left _ hu)⟩
    have hu' : ∀ r ∈ done ++ rest, r = u ∨ Apart u r := by
      intro r hr
      rcases List.mem_append.1 hr with hr | hr
      · rcases eq_or_ne r u with heq | hne
        · exact .inl heq
        · exact .inr ((h.settled.forall hu hr hne.symm).1 huse)
      · exact .inr (h.ahead u hu huse r (List.mem_cons_of_mem _ hr))
    have hclear := (h.ahead u hu huse e List.mem_cons_self).clear_trimAll he hothers hu'
      (List.mem_append_left _ hu) hcut
    exact (hclear.symm.within hgf).symm
  · intro u hu huse r hr
    rcases List.mem_append.1 hu with hu | hu
    · exact h.ahead u hu huse r (List.mem_cons_of_mem _ hr)
    · exact List.mem_singleton.1 hu ▸ hapart r (List.mem_append_right _ hr)

/-- Usable entries come from usable entries that hold them. -/
def Shrinks (memmap memmap' : List MmapEntry) : Prop :=
  ∀ u ∈ memmap', u.Usable → ∃ e ∈ memmap, e.Usable ∧ Within u e

/-- The loop over the entries leaves usable ones of whole pages, apart from all others, and all that
are not usable. -/
theorem trimEntries_spec {result : List MmapEntry} (h : Trimmed done rest)
    (hrun : trimEntries done rest = .ok result) :
    Trimmed result [] ∧ Shrinks (done ++ rest) result ∧
      ∀ e ∈ done ++ rest, ¬ e.Usable → e ∈ result := by
  induction rest generalizing done with
  | nil =>
    obtain rfl := Except.ok.inj hrun
    rw [List.append_nil]
    exact ⟨h, fun u hu huse => ⟨u, hu, huse, .refl u⟩, fun _ he _ => he⟩
  | cons e rest ih =>
    rw [trimEntries] at hrun
    split at hrun
    case isTrue hother =>
      have hres := ih (h.skip hother) hrun
      rwa [List.append_assoc] at hres
    case isFalse hother =>
      have huse : e.Usable := not_not.1 hother
      obtain ⟨f, hcut, hrun⟩ := bind_eq_ok.1 hrun
      cases hkeep : keepEntry f with
      | none =>
        rw [hkeep, Option.toList_none, List.append_nil] at hrun
        obtain ⟨htrim, hshrink, hothers⟩ := ih h.drop hrun
        refine ⟨htrim, fun u hu hu' => ?_, fun r hr hr' => hothers r ?_ hr'⟩
        · obtain ⟨v, hv, hv', hin⟩ := hshrink u hu hu'
          refine ⟨v, ?_, hv', hin⟩
          simp only [List.mem_append, List.mem_cons] at hv ⊢
          tauto
        · simp only [List.mem_append, List.mem_cons] at hr ⊢
          rcases hr with hr | rfl | hr
          · exact .inl hr
          · exact absurd huse hr'
          · exact .inr hr
      | some g =>
        rw [hkeep, Option.toList_some] at hrun
        obtain ⟨hnext, hin⟩ := h.keep hcut hkeep
        obtain ⟨htrim, hshrink, hothers⟩ := ih hnext hrun
        refine ⟨htrim, fun u hu hu' => ?_, fun r hr hr' => hothers r ?_ hr'⟩
        · obtain ⟨v, hv, hv', huv⟩ := hshrink u hu hu'
          simp only [List.mem_append, List.mem_cons, List.not_mem_nil, or_false] at hv ⊢
          rcases hv with (hv | rfl) | hv
          · exact ⟨v, .inl hv, hv', huv⟩
          · exact ⟨e, .inr (.inl rfl), huse, huv.trans hin⟩
          · exact ⟨v, .inr (.inr hv), hv', huv⟩
        · simp only [List.mem_append, List.mem_cons, List.not_mem_nil, or_false] at hr ⊢
          rcases hr with hr | rfl | hr
          · exact .inl (.inl hr)
          · exact absurd huse hr'
          · exact .inr hr

/-! ## The table it leaves -/

/-- The table behind `sanitise_entries`. -/
structure Sanitised (memmap : List MmapEntry) : Prop where
  bounded : ∀ e ∈ memmap, Bounded e
  whole : ∀ u ∈ memmap, u.Usable → Whole u
  settled : memmap.Pairwise Settled
  sorted : memmap.Pairwise fun e f => e.base ≤ f.base

/-- The merged entry keeps away from what its parts keep away from. -/
private theorem Settled.join {x next : MmapEntry} (hreclaim : e.type = memmapBootloaderReclaimable)
    (he : Settled x e) (hnext : Settled x next) (habut : next.base = e.base + e.length) :
    Settled x { e with length := e.length + next.length } := by
  refine ⟨fun hx => (he.1 hx).join (hnext.1 hx) habut rfl, fun huse => ?_⟩
  exact absurd (hreclaim.symm.trans huse) (by decide)

/-- Merging keeps a sanitised table sanitised and its usable entries as they are. -/
theorem mergeInto_spec (h : Sanitised (e :: rest)) :
    Sanitised (mergeInto e rest) ∧ (∀ x, (∀ r ∈ e :: rest, Settled x r) →
      ∀ r ∈ mergeInto e rest, Settled x r) ∧ (∀ r ∈ mergeInto e rest, e.base ≤ r.base) ∧
      ∀ u, u.Usable → (u ∈ mergeInto e rest ↔ u ∈ e :: rest) := by
  induction rest generalizing e with
  | nil =>
    exact ⟨h, fun _ hx => hx, fun r hr => (List.mem_singleton.1 hr) ▸ le_rfl, fun _ _ => Iff.rfl⟩
  | cons next rest ih =>
    obtain ⟨hbounded, hwhole, hsettled, hsorted⟩ := h
    obtain ⟨hhead, htail⟩ := List.pairwise_cons.1 hsettled
    obtain ⟨hlow, hrest⟩ := List.pairwise_cons.1 hsorted
    have hbe := hbounded e List.mem_cons_self
    have hbn := hbounded next (List.mem_cons_of_mem _ List.mem_cons_self)
    rw [mergeInto]
    split
    case isTrue hmerge =>
      obtain ⟨hreclaim, hreclaim', habut⟩ := hmerge
      rw [entryTop_eq hbe] at habut
      have hlen : add64 e.length next.length = e.length + next.length := by
        rw [Bounded] at hbe hbn
        exact add64_of_lt (by omega)
      rw [hlen]
      have hjoined : Sanitised ({ e with length := e.length + next.length } :: rest) := by
        refine ⟨?_, ?_, List.pairwise_cons.2 ⟨fun r hr => ?_, (List.pairwise_cons.1 htail).2⟩,
          List.pairwise_cons.2 ⟨fun r hr => hlow r (List.mem_cons_of_mem _ hr),
            (List.pairwise_cons.1 hrest).2⟩⟩
        · intro r hr
          rcases List.mem_cons.1 hr with rfl | hr
          · rw [Bounded] at hbn ⊢
            dsimp only
            omega
          · exact hbounded r (List.mem_cons_of_mem _ (List.mem_cons_of_mem _ hr))
        · intro u hu huse
          rcases List.mem_cons.1 hu with rfl | hu
          · exact absurd (hreclaim.symm.trans huse) (by decide)
          · exact hwhole u (List.mem_cons_of_mem _ (List.mem_cons_of_mem _ hu)) huse
        · exact ((hhead r (List.mem_cons_of_mem _ hr)).symm.join hreclaim
            ((List.pairwise_cons.1 htail).1 r hr).symm habut).symm
      obtain ⟨hsane, hall, hbase, husable⟩ := ih hjoined
      refine ⟨hsane, fun x hx => hall x fun r hr => ?_, hbase, fun u huse => ?_⟩
      · rcases List.mem_cons.1 hr with rfl | hr
        · exact (hx e List.mem_cons_self).join hreclaim
            (hx next (List.mem_cons_of_mem _ List.mem_cons_self)) habut
        · exact hx r (List.mem_cons_of_mem _ (List.mem_cons_of_mem _ hr))
      · have hcons : ∀ (r : MmapEntry) (l : List MmapEntry), r.type = memmapBootloaderReclaimable →
            (u ∈ r :: l ↔ u ∈ l) := by
          intro r l hr
          rw [List.mem_cons, or_iff_right]
          rintro rfl
          exact absurd (hr.symm.trans huse) (by decide)
        have hall := (hcons e (next :: rest) hreclaim).trans (hcons next rest hreclaim')
        refine (husable u huse).trans ((hcons { e with length := _ } rest ?_).trans hall.symm)
        exact hreclaim
    case isFalse =>
      have hnext : Sanitised (next :: rest) :=
        ⟨fun r hr => hbounded r (List.mem_cons_of_mem _ hr),
          fun u hu => hwhole u (List.mem_cons_of_mem _ hu), htail, hrest⟩
      obtain ⟨hsane, hall, hbase, husable⟩ := ih hnext
      refine ⟨⟨?_, ?_, ?_, ?_⟩, ?_, ?_, ?_⟩
      · exact List.forall_mem_cons.2 ⟨hbe, hsane.bounded⟩
      · exact List.forall_mem_cons.2 ⟨hwhole e List.mem_cons_self, hsane.whole⟩
      · exact List.pairwise_cons.2 ⟨hall e hhead, hsane.settled⟩
      · refine List.pairwise_cons.2 ⟨fun r hr => ?_, hsane.sorted⟩
        exact (hlow next List.mem_cons_self).trans (hbase r hr)
      · intro x hx
        exact List.forall_mem_cons.2 ⟨hx e List.mem_cons_self,
          hall x fun r hr => hx r (List.mem_cons_of_mem _ hr)⟩
      · exact List.forall_mem_cons.2 ⟨le_rfl, fun r hr =>
          (hlow next List.mem_cons_self).trans (hbase r hr)⟩
      · intro u huse
        rw [List.mem_cons, husable u huse, List.mem_cons, List.mem_cons, List.mem_cons]

/-- Sorting and merging. -/
theorem sanitised_of_trimmed {trimmed table : List MmapEntry} (htrim : Trimmed trimmed [])
    (h : (match selectionSort MmapEntry.base trimmed with
      | [] => .error .pastTable
      | e :: rest => .ok (mergeInto e rest) : Except Stop _) = .ok table) :
    Sanitised table ∧ ∀ u, u.Usable → (u ∈ table ↔ u ∈ trimmed) := by
  have hperm := selectionSort_perm MmapEntry.base trimmed
  have hsorted := selectionSort_sorted MmapEntry.base trimmed
  generalize selectionSort MmapEntry.base trimmed = sorted at h hperm hsorted
  cases sorted with
  | nil => cases h
  | cons e rest =>
    obtain rfl := Except.ok.inj h
    have hsane : Sanitised (e :: rest) := by
      refine ⟨fun r hr => htrim.bounded r ?_, fun u hu => htrim.whole u (hperm.mem_iff.1 hu),
        (hperm.pairwise_iff Settled.symm).2 htrim.settled, hsorted⟩
      rw [List.append_nil]
      exact hperm.mem_iff.1 hr
    obtain ⟨hmerged, -, -, husable⟩ := mergeInto_spec hsane
    exact ⟨hmerged, fun u huse => (husable u huse).trans hperm.mem_iff⟩

/-- Before the first entry nothing is trimmed. -/
theorem Trimmed.start {memmap : List MmapEntry} (hbound : ∀ e ∈ memmap, Bounded e) :
    Trimmed [] memmap :=
  ⟨hbound, by simp, List.Pairwise.nil, by simp⟩

/-- What `sanitise_entries` does to a table of entries that end below `2 ^ 63`. -/
theorem sanitiseEntries_spec {memmap memmap' : List MmapEntry} (hbound : ∀ e ∈ memmap, Bounded e)
    (h : sanitiseEntries memmap = .ok memmap') : Sanitised memmap' ∧ Shrinks memmap memmap' ∧
      ∀ u ∈ memmap', u.Usable → ∀ r ∈ memmap, ¬ r.Usable → Apart u r := by
  obtain ⟨trimmed, hrun, h⟩ := bind_eq_ok.1 h
  obtain ⟨htrim, hshrink, hothers⟩ := trimEntries_spec (.start hbound) hrun
  obtain ⟨hsane, husable⟩ := sanitised_of_trimmed htrim h
  refine ⟨hsane, fun u hu huse => hshrink u ((husable u huse).1 hu) huse,
    fun u hu huse r hr hr' => ?_⟩
  have hne : u ≠ r := fun heq => hr' (heq ▸ huse)
  exact (htrim.settled.forall ((husable u huse).1 hu) (hothers r hr hr') hne).1 huse

/-! ## How far the table reaches -/

/-- Entries end at the limit or below. -/
def Below (limit : ℕ) (memmap : List MmapEntry) : Prop := ∀ e ∈ memmap, e.base + e.length ≤ limit

variable {limit : ℕ} {memmap table : List MmapEntry}

/-- Entries below a limit are bounded. -/
theorem Below.bounded (h : Below limit memmap) (hlimit : limit < 2 ^ 63) : ∀ e ∈ memmap, Bounded e :=
  fun e he => (h e he).trans_lt hlimit

/-- Trimming leaves the table below its limit. -/
theorem trimEntries_below (hlimit : limit < 2 ^ 63)
    (h : Below limit (done ++ rest)) (hrun : trimEntries done rest = .ok table) :
    Below limit table := by
  induction rest generalizing done with
  | nil =>
    obtain rfl := Except.ok.inj hrun
    rwa [List.append_nil] at h
  | cons e rest ih =>
    have hothers : Below limit (done ++ rest) := fun r hr => h r (by
      simp only [List.mem_append, List.mem_cons] at hr ⊢
      tauto)
    have he := h e (List.mem_append_right _ List.mem_cons_self)
    rw [trimEntries] at hrun
    split at hrun
    · refine ih ?_ hrun
      rwa [List.append_assoc]
    · obtain ⟨f, hcut, hrun⟩ := bind_eq_ok.1 hrun
      obtain ⟨hin, -, -⟩ := trimAll_spec (he.trans_lt hlimit) (hothers.bounded hlimit) hcut
      refine ih (fun r hr => ?_) hrun
      rw [List.append_assoc] at hr
      rcases List.mem_append.1 hr with hr | hr
      · exact hothers r (List.mem_append_left _ hr)
      rcases List.mem_append.1 hr with hr | hr
      · have hkeep := keepEntry_spec ((hin.2.trans he).trans_lt hlimit) (Option.mem_toList.1 hr)
        exact hkeep.1.2.trans (hin.2.trans he)
      · exact hothers r (List.mem_append_right _ hr)

/-- Merging leaves the table below its limit. -/
theorem mergeInto_below (hlimit : limit < 2 ^ 63)
    (h : Below limit (e :: rest)) : Below limit (mergeInto e rest) := by
  induction rest generalizing e with
  | nil => exact h
  | cons next rest ih =>
    obtain ⟨he, hrest⟩ := List.forall_mem_cons.1 h
    obtain ⟨hnext, hrest'⟩ := List.forall_mem_cons.1 hrest
    rw [mergeInto]
    split
    case isTrue hmerge =>
      have habut := hmerge.2.2
      rw [entryTop_eq (he.trans_lt hlimit)] at habut
      refine ih (List.forall_mem_cons.2 ⟨?_, hrest'⟩)
      dsimp only
      rw [add64_of_lt (by omega)]
      omega
    case isFalse => exact List.forall_mem_cons.2 ⟨he, ih hrest⟩

/-- Sanitising leaves the table below its limit. -/
theorem sanitiseEntries_below (hlimit : limit < 2 ^ 63) (h : Below limit memmap)
    (hrun : sanitiseEntries memmap = .ok table) : Below limit table := by
  obtain ⟨trimmed, htrim, hrun⟩ := bind_eq_ok.1 hrun
  have hstart : Below limit ([] ++ memmap) := h
  have hbelow := trimEntries_below hlimit hstart htrim
  have hperm := selectionSort_perm MmapEntry.base trimmed
  generalize selectionSort MmapEntry.base trimmed = sorted at hrun hperm
  cases sorted with
  | nil => cases hrun
  | cons e rest =>
    obtain rfl := Except.ok.inj hrun
    exact mergeInto_below hlimit fun r hr => hbelow r (hperm.mem_iff.1 hr)

/-! ## The pages it keeps -/

/-- A range is inside a usable entry behind the loop, or inside one ahead and clear of all others. -/
def Held (p : MmapEntry) (done rest : List MmapEntry) : Prop :=
  (∃ u ∈ done, u.Usable ∧ Within p u) ∨
    ∃ before e after, rest = before ++ e :: after ∧ e.Usable ∧ Within p e ∧
      ∀ r ∈ done ++ (before ++ after), Clear p r

/-- What is clear of the other entry stays inside the trimmed one. -/
theorem trimEntry_within {p res f : MmapEntry} (he : Bounded e) (hres : Bounded res)
    (hin : Within p e) (hclear : Clear p res) (hpos : 0 < p.length)
    (h : trimEntry e res = .ok f) : Within p f := by
  rw [trimEntry, entryTop_eq he, entryTop_eq hres] at h
  rw [Bounded] at he hres
  dsimp only at h
  split at h
  · cases h
  rename_i hpanic
  obtain rfl := Except.ok.inj h
  have hlen : ∀ top base, base ≤ top → top < 2 ^ 63 → sub64 top base = top - base :=
    fun top base hle hlt => sub64_of_le hle (hlt.trans (by decide))
  simp only [Within, Clear] at *
  split_ifs at * with hlow hhigh hhigh <;> rw [hlen _ _ (by omega) (by omega)] <;>
    exact ⟨by omega, by omega⟩

/-- What is clear of all the others stays inside the trimmed entry. -/
theorem trimAll_within {p f : MmapEntry} {others : List MmapEntry} (he : Bounded e)
    (hothers : ∀ r ∈ others, Bounded r) (hin : Within p e) (hclear : ∀ r ∈ others, Clear p r)
    (hpos : 0 < p.length) (h : others.foldlM trimEntry e = .ok f) : Within p f := by
  induction others generalizing e with
  | nil => exact Except.ok.inj h ▸ hin
  | cons r others ih =>
    rw [List.foldlM_cons] at h
    obtain ⟨g, hg, hrest⟩ := bind_eq_ok.1 h
    obtain ⟨hge, -⟩ := trimEntry_spec he (hothers r List.mem_cons_self) hg
    exact ih (hge.2.trans_lt he) (fun r hr => hothers r (List.mem_cons_of_mem _ hr))
      (trimEntry_within he (hothers r List.mem_cons_self) hin (hclear r List.mem_cons_self) hpos hg)
      (fun r hr => hclear r (List.mem_cons_of_mem _ hr)) hrest

/-- The alignment drops no whole page. -/
theorem keepEntry_within {p : MmapEntry} (he : Bounded e) (hin : Within p e) (hwhole : Whole p)
    (hpos : 0 < p.length) : ∃ g, keepEntry e = some g ∧ Within p g := by
  obtain ⟨hbase, hlength, hmin⟩ := hwhole
  rw [Bounded] at he
  obtain ⟨hle, hlt, hdvd⟩ := @alignUp_page e.base (by omega)
  obtain ⟨up, hup⟩ : ∃ up, alignUp e.base pageSize = up := ⟨_, rfl⟩
  obtain ⟨down, hdown⟩ : ∃ down, alignDown (e.length - (up - e.base)) pageSize = down := ⟨_, rfl⟩
  rw [hup] at hle hlt hdvd
  have hcut := alignDown_le (e.length - (up - e.base)) pageSize
  have hkept : p.base + p.length ≤ up + down := by
    rw [← hdown, alignDown]
    simp only [Within, pageSize] at *
    omega
  rw [hdown] at hcut
  simp only [Within, pageSize] at hin hbase hlength hlt hdvd
  rw [keepEntry, if_neg (by omega), alignEntry, if_neg (by simp only [pageSize]; omega)]
  dsimp only
  rw [hup, sub64_of_le hle (by omega), sub64_of_le (by omega) (by omega), hdown,
    add64_of_lt (by omega)]
  split
  · rw [memmapBase] at *
    rw [if_pos (by omega), sub64_of_le (by omega) (by omega)]
    exact ⟨_, rfl, hmin, by simp only; omega⟩
  · exact ⟨_, rfl, by simp only; omega, hkept⟩

/-- Pages that are held come to lie in a usable entry. -/
theorem trimEntries_held {p : MmapEntry} {result : List MmapEntry} (h : Trimmed done rest)
    (hp : Held p done rest) (hwhole : Whole p) (hpos : 0 < p.length)
    (hrun : trimEntries done rest = .ok result) : ∃ u ∈ result, u.Usable ∧ Within p u := by
  induction rest generalizing done with
  | nil =>
    obtain rfl := Except.ok.inj hrun
    rcases hp with hp | ⟨before, e, after, heq, -⟩
    · exact hp
    · simp at heq
  | cons e rest ih =>
    rw [trimEntries] at hrun
    split at hrun
    case isTrue hother =>
      refine ih (h.skip hother) ?_ hrun
      rcases hp with ⟨u, hu, hp⟩ | ⟨before, f, after, heq, huse, hin, hclear⟩
      · exact .inl ⟨u, List.mem_append_left _ hu, hp⟩
      · cases before with
        | nil =>
          obtain ⟨rfl, -⟩ := List.cons.inj heq
          exact absurd huse hother
        | cons g before =>
          obtain ⟨rfl, rfl⟩ := List.cons.inj heq
          exact .inr ⟨before, f, after, rfl, huse, hin, by simpa using hclear⟩
    case isFalse hother =>
      obtain ⟨f, hcut, hrun⟩ := bind_eq_ok.1 hrun
      have he := h.bounded e (List.mem_append_right _ List.mem_cons_self)
      have hfe := (trimAll_spec he h.drop.bounded hcut).1
      have hf : Bounded f := hfe.2.trans_lt he
      have hnext : Trimmed (done ++ (keepEntry f).toList) rest := by
        cases hkeep : keepEntry f with
        | none =>
          rw [Option.toList_none, List.append_nil]
          exact h.drop
        | some g => exact (h.keep hcut hkeep).1
      refine ih hnext ?_ hrun
      rcases hp with ⟨u, hu, hp⟩ | ⟨before, g, after, heq, huse, hin, hclear⟩
      · exact .inl ⟨u, List.mem_append_left _ hu, hp⟩
      · cases before with
        | nil =>
          obtain ⟨rfl, rfl⟩ := List.cons.inj heq
          have hinf := trimAll_within he h.drop.bounded hin hclear hpos hcut
          obtain ⟨g, hg, hing⟩ := keepEntry_within hf hinf hwhole hpos
          obtain ⟨-, htype, -⟩ := keepEntry_spec hf hg
          refine .inl ⟨g, ?_, ?_, hing⟩
          · rw [hg, Option.toList_some]
            exact List.mem_append_right _ List.mem_cons_self
          · exact htype.trans ((trimAll_spec he h.drop.bounded hcut).2.1.trans huse)
        | cons x before =>
          obtain ⟨rfl, rfl⟩ := List.cons.inj heq
          refine .inr ⟨before, g, after, rfl, huse, hin, fun r hr => ?_⟩
          simp only [List.mem_append, Option.mem_toList] at hr
          rcases hr with (hr | hr) | hr
          · exact hclear r (List.mem_append_left _ hr)
          · have hre := (keepEntry_spec hf hr).1.trans hfe
            exact ((hclear e (by simp)).symm.within hre).symm
          · exact hclear r (by simp only [List.mem_append, List.mem_cons]; tauto)

/-- No usable memory is lost: whole pages from 1 MiB on that lie in one usable entry and meet no
other one stay in a usable entry. -/
theorem sanitiseEntries_keeps {memmap before after table : List MmapEntry} {u p : MmapEntry}
    (hbound : ∀ e ∈ memmap, Bounded e) (hsplit : memmap = before ++ u :: after) (huse : u.Usable)
    (hin : Within p u) (hclear : ∀ r ∈ before ++ after, Clear p r) (hwhole : Whole p)
    (hpos : 0 < p.length) (h : sanitiseEntries memmap = .ok table) :
    ∃ v ∈ table, v.Usable ∧ Within p v := by
  obtain ⟨trimmed, hrun, h⟩ := bind_eq_ok.1 h
  obtain ⟨v, hv, hvuse, hpv⟩ := trimEntries_held (.start hbound)
    (.inr ⟨before, u, after, hsplit, huse, hin, hclear⟩) hwhole hpos hrun
  obtain ⟨htrim, -⟩ := trimEntries_spec (.start hbound) hrun
  exact ⟨v, ((sanitised_of_trimmed htrim h).2 v hvuse).2 hv, hvuse, hpv⟩

/-- A page of an entry whose end another one covers. -/
theorem sanitiseEntries_keeps_page :
    ∃ v ∈ [(⟨0x100000, 0x2000, 1⟩ : MmapEntry), ⟨0x102800, 0x1000, 2⟩], v.Usable ∧
      Within ⟨0x101000, 0x1000, 1⟩ v := by
  have hbound : ∀ e ∈ [(⟨0x102800, 0x1000, 2⟩ : MmapEntry), ⟨0xff800, 0x3400, 1⟩], Bounded e := by
    unfold Bounded
    decide
  have hclear : ∀ r ∈ [(⟨0x102800, 0x1000, 2⟩ : MmapEntry)] ++ [], Clear ⟨0x101000, 0x1000, 1⟩ r := by
    unfold Clear
    decide
  have hwhole : Whole ⟨0x101000, 0x1000, 1⟩ := by
    unfold Whole
    decide
  exact @sanitiseEntries_keeps _ [⟨0x102800, 0x1000, 2⟩] [] _ ⟨0xff800, 0x3400, 1⟩ _ hbound rfl rfl
    ⟨by decide, by decide⟩ hclear hwhole (by decide) (by decide)

end Orionis.Limine
