import Orionis.Foundations.ByteMemory
import Orionis.Foundations.Run

/-!
# Reading disks

`drivers/disk.c` reads blocks of sixteen sectors into one cache and copies out of it. The cache
remembers the block it holds but not the drive, so a read that begins in that block on another drive
gets the bytes of the first one.
-/

namespace Orionis.Limine

open Orionis.Foundations

/-! ## The source -/

/-- What the BIOS says of the drives: whether one is there, its sectors, its bytes, and whether a
block can be read from a sector on. -/
structure Bios where
  present : ℕ → Bool
  bytesPerSect : ℕ → ℕ
  content : ℕ → Memory
  readable : ℕ → ℕ → Bool

/-- `BLOCK_SIZE_IN_SECTORS`. -/
def blockSizeInSectors : ℕ := 16

/-- `BLOCK_SIZE` of a drive. -/
def Bios.blockSize (b : Bios) (drive : ℕ) : ℕ := b.bytesPerSect drive * blockSizeInSectors

/-- `CACHE_INVALID`. -/
def cacheInvalid : ℕ := 2 ^ 64 - 1

/-- `cache` and `cached_block`. -/
structure DiskCache where
  cache : Memory
  cachedBlock : ℕ

/-- Before the first read. -/
def DiskCache.start (cache : Memory) : DiskCache := ⟨cache, cacheInvalid⟩

/-- `cache_block`, none where the BIOS fails and it panics. -/
def cacheBlock (b : Bios) (s : DiskCache) (drive block : ℕ) : Option DiskCache :=
  if block = s.cachedBlock then some s
  else if b.readable drive (block * blockSizeInSectors) then
    some ⟨fun i => if i < b.blockSize drive then b.content drive (block * b.blockSize drive + i)
      else s.cache i, block⟩
  else none

/-- The loop of `read`, with the bytes it puts into the buffer one after the other. -/
def readLoop (b : Bios) (drive : ℕ) : (fuel : ℕ) → DiskCache → (loc count : ℕ) →
    Option (List UInt8 × DiskCache)
  | _, s, _, 0 => some ([], s)
  | 0, _, _, _ => none
  | fuel + 1, s, loc, count => do
    let s ← cacheBlock b s drive (loc / b.blockSize drive)
    let offset := loc % b.blockSize drive
    let chunk := if count > b.blockSize drive - offset then b.blockSize drive - offset else count
    let (rest, s') ← readLoop b drive fuel s ((loc + chunk) % 2 ^ 64) (count - chunk)
    return (loadBytes s.cache chunk offset ++ rest, s')

/-- `read`. A round copies a byte at least. -/
def read (b : Bios) (s : DiskCache) (drive loc count : ℕ) : Option (List UInt8 × DiskCache) :=
  if b.present drive then readLoop b drive count s loc count else none

/-- `read_partition`, of a partition that begins at a sector of 512 bytes. -/
def readPartition (b : Bios) (s : DiskCache) (drive firstSect loc count : ℕ) :
    Option (List UInt8 × DiskCache) := read b s drive ((loc + firstSect * 512) % 2 ^ 64) count

/-! ## What the cache holds -/

/-- The cache holds a block of a drive. -/
structure Cached (b : Bios) (s : DiskCache) (drive block : ℕ) : Prop where
  held : s.cachedBlock = block
  bytes : ∀ i < b.blockSize drive, s.cache i = b.content drive (block * b.blockSize drive + i)

variable {b : Bios} {s s' t : DiskCache} {drive block loc count fuel : ℕ} {bytes : List UInt8}

/-- After a block has been asked for it is cached, unless it was taken for one that was. -/
theorem cacheBlock_spec (h : cacheBlock b s drive block = some s') :
    block = s.cachedBlock ∧ s' = s ∨ block ≠ s.cachedBlock ∧ Cached b s' drive block := by
  rw [cacheBlock] at h
  split at h
  · next heq => exact .inl ⟨heq, (Option.some.inj h).symm⟩
  · next hne =>
    split at h
    · obtain rfl := Option.some.inj h
      exact .inr ⟨hne, rfl, fun i hi => if_pos hi⟩
    · cases h

/-- A chunk copied out of the cache is one of the drive. -/
theorem Cached.loadBytes_eq {offset chunk : ℕ} (h : Cached b s drive block)
    (hchunk : offset + chunk ≤ b.blockSize drive) :
    loadBytes s.cache chunk offset =
      loadBytes (b.content drive) chunk (block * b.blockSize drive + offset) :=
  loadBytes_shift fun i hi => by
    rw [h.bytes _ (by omega), Nat.add_assoc]

/-- A round of the loop. -/
theorem readLoop_succ (hcount : 0 < count)
    (h : readLoop b drive (fuel + 1) s loc count = some (bytes, s')) :
    ∃ t chunk rest, cacheBlock b s drive (loc / b.blockSize drive) = some t ∧
      chunk = min count (b.blockSize drive - loc % b.blockSize drive) ∧
      readLoop b drive fuel t ((loc + chunk) % 2 ^ 64) (count - chunk) = some (rest, s') ∧
      bytes = loadBytes t.cache chunk (loc % b.blockSize drive) ++ rest := by
  obtain ⟨n, rfl⟩ := Nat.exists_eq_succ_of_ne_zero (Nat.ne_of_gt hcount)
  rw [readLoop] at h
  obtain ⟨t, hcache, h⟩ := Option.bind_eq_some_iff.1 h
  obtain ⟨⟨rest, u⟩, hrest, h⟩ := Option.bind_eq_some_iff.1 h
  obtain ⟨rfl, rfl⟩ := Prod.mk.inj (Option.some.inj h)
  have hchunk : (if n.succ > b.blockSize drive - loc % b.blockSize drive then
      b.blockSize drive - loc % b.blockSize drive else n.succ) =
        min n.succ (b.blockSize drive - loc % b.blockSize drive) := by
    split <;> omega
  rw [hchunk] at hrest ⊢
  · exact ⟨t, _, rest, hcache, rfl, hrest, rfl⟩
  · exact Nat.succ_ne_zero n

/-- A block that is not cached, or cached from this drive. -/
def Fresh (b : Bios) (s : DiskCache) (drive block : ℕ) : Prop :=
  block = s.cachedBlock → Cached b s drive block

/-- Asking for a fresh block leaves it in the cache. -/
theorem Fresh.cacheBlock (hfresh : Fresh b s drive block)
    (h : cacheBlock b s drive block = some s') : Cached b s' drive block := by
  rcases cacheBlock_spec h with ⟨heq, rfl⟩ | ⟨-, hcached⟩
  · exact hfresh heq
  · exact hcached

/-- The first byte behind a chunk is in the next block, unless the read ends. -/
theorem next_block {bs chunk : ℕ} (hbs : 0 < bs) (hchunk : chunk = min count (bs - loc % bs))
    (hmore : chunk < count) : (loc + chunk) / bs = loc / bs + 1 ∧ (loc + chunk) % bs = 0 := by
  have hmod := Nat.mod_lt loc hbs
  have hsplit := Nat.div_add_mod loc bs
  have hend : loc + chunk = bs * (loc / bs + 1) := by
    rw [Nat.mul_add]
    omega
  rw [hend, Nat.mul_div_cancel_left _ hbs, Nat.mul_mod_right]
  exact ⟨rfl, rfl⟩

/-- A read that begins in a fresh block gives the bytes of the drive and leaves its last block in the
cache. -/
theorem readLoop_fresh (hbs : 0 < b.blockSize drive) (hfresh : Fresh b s drive (loc / b.blockSize drive))
    (hloc : loc + count < 2 ^ 64) (h : readLoop b drive fuel s loc count = some (bytes, s')) :
    bytes = loadBytes (b.content drive) count loc ∧
      (0 < count → Cached b s' drive ((loc + count - 1) / b.blockSize drive)) := by
  induction fuel generalizing s loc count bytes with
  | zero =>
    cases count with
    | zero =>
      rw [readLoop] at h
      obtain ⟨rfl, -⟩ := Prod.mk.inj (Option.some.inj h)
      exact ⟨rfl, fun hpos => absurd hpos (Nat.lt_irrefl 0)⟩
    | succ count => cases h
  | succ fuel ih =>
    cases count with
    | zero =>
      rw [readLoop] at h
      obtain ⟨rfl, -⟩ := Prod.mk.inj (Option.some.inj h)
      exact ⟨rfl, fun hpos => absurd hpos (Nat.lt_irrefl 0)⟩
    | succ n =>
      generalize hcount : n + 1 = count at hloc h ⊢
      obtain ⟨t, chunk, rest, hcache, hchunk, hrest, rfl⟩ := readLoop_succ (by omega) h
      have hcached := hfresh.cacheBlock hcache
      have hmod := Nat.mod_lt loc hbs
      have hsplit := Nat.div_add_mod' loc (b.blockSize drive)
      rw [Nat.mod_eq_of_lt (by omega)] at hrest
      have hnext : Fresh b t drive ((loc + chunk) / b.blockSize drive) := by
        intro heq
        by_cases hmore : chunk < count
        · rw [(next_block hbs hchunk hmore).1, hcached.held] at heq
          omega
        · rw [heq, hcached.held]
          exact hcached
      obtain ⟨hbytes, hlast⟩ := ih hnext (by omega) hrest
      rw [hcached.loadBytes_eq (by omega), hsplit, hbytes, ← loadBytes_add]
      refine ⟨by rw [show chunk + (count - chunk) = count by omega], fun _ => ?_⟩
      by_cases hmore : chunk < count
      · have hshown := hlast (by omega)
        rwa [show loc + chunk + (count - chunk) = loc + count by omega] at hshown
      · have hdone : count - chunk = 0 := by omega
        rw [hdone] at hrest
        have hsame : t = s' := by
          cases fuel <;> exact (Prod.mk.inj (Option.some.inj hrest)).2
        have hblock : (loc + count - 1) / b.blockSize drive = loc / b.blockSize drive := by
          rw [Nat.div_eq_iff hbs]
          omega
        rw [hblock, ← hsame]
        exact hcached

/-- A drive that is there and gives all its blocks. -/
structure Bios.Ready (b : Bios) (drive : ℕ) : Prop where
  present : b.present drive = true
  readable : ∀ lba, b.readable drive lba = true
  block : 0 < b.blockSize drive

/-- With a round for each byte, the loop of a drive that can be read returns. -/
theorem readLoop_isSome (hready : b.Ready drive) (hfuel : count ≤ fuel) :
    (readLoop b drive fuel s loc count).isSome := by
  induction fuel generalizing s loc count with
  | zero =>
    obtain rfl := Nat.le_zero.1 hfuel
    rfl
  | succ fuel ih =>
    cases count with
    | zero => rfl
    | succ n =>
      have hmod := Nat.mod_lt loc hready.block
      have hcache : ∃ t, cacheBlock b s drive (loc / b.blockSize drive) = some t := by
        rw [cacheBlock, hready.readable]
        split
        · exact ⟨_, rfl⟩
        · exact ⟨_, rfl⟩
      obtain ⟨t, hcache⟩ := hcache
      rw [readLoop, hcache]
      · simp only [Option.bind_eq_bind, Option.bind_some]
        generalize hchunk : (if n + 1 > b.blockSize drive - loc % b.blockSize drive then
          b.blockSize drive - loc % b.blockSize drive else n + 1) = chunk
        have hpos : 0 < chunk := by
          rw [← hchunk]
          split <;> omega
        obtain ⟨⟨rest, u⟩, hrest⟩ := Option.isSome_iff_exists.1
          (@ih t ((loc + chunk) % 2 ^ 64) (n + 1 - chunk) (by omega))
        rw [hrest]
        rfl
      · exact Nat.succ_ne_zero n

/-- A read of such a drive returns. -/
theorem read_isSome (hready : b.Ready drive) : (read b s drive loc count).isSome := by
  rw [read, hready.present]
  exact readLoop_isSome hready (le_refl _)

/-- Nothing is cached, or a block of this drive. -/
def OwnedBy (b : Bios) (s : DiskCache) (drive : ℕ) : Prop :=
  s.cachedBlock = cacheInvalid ∨ ∃ block, Cached b s drive block

/-- With no other drive in the cache a read gives the bytes of its drive. -/
theorem OwnedBy.read (howned : OwnedBy b s drive) (hbs : 1 < b.blockSize drive)
    (hloc : loc + count < 2 ^ 64) (h : read b s drive loc count = some (bytes, s')) :
    bytes = loadBytes (b.content drive) count loc ∧ OwnedBy b s' drive := by
  rw [Limine.read] at h
  split at h
  case isFalse => cases h
  have hfresh : Fresh b s drive (loc / b.blockSize drive) := by
    intro heq
    rcases howned with hinvalid | ⟨block, hcached⟩
    · have hle : loc / b.blockSize drive ≤ loc / 2 := Nat.div_le_div_left hbs (by omega)
      rw [cacheInvalid] at hinvalid
      omega
    · rw [heq, hcached.held]
      exact hcached
  obtain ⟨hbytes, hlast⟩ := readLoop_fresh (by omega) hfresh hloc h
  refine ⟨hbytes, ?_⟩
  rcases Nat.eq_zero_or_pos count with rfl | hcount
  · rw [readLoop] at h
    rwa [← (Prod.mk.inj (Option.some.inj h)).2]
  · exact .inr ⟨_, hlast hcount⟩

/-- A read that begins in a block cached from another drive of the same block size gets that drive's
bytes up to the end of the block. -/
theorem readLoop_stale {d blockSize : ℕ} (hbs : 0 < blockSize)
    (hdrive : b.blockSize drive = blockSize) (hother : b.blockSize d = blockSize)
    (hcached : Cached b s d (loc / blockSize)) (hcount : 0 < count) (hloc : loc + count < 2 ^ 64)
    (h : readLoop b drive fuel s loc count = some (bytes, s')) :
    bytes = loadBytes (b.content d) (min count (blockSize - loc % blockSize)) loc ++
        loadBytes (b.content drive) (count - min count (blockSize - loc % blockSize))
          (loc + min count (blockSize - loc % blockSize)) ∧
      if (loc + count - 1) / blockSize = loc / blockSize then s' = s
      else Cached b s' drive ((loc + count - 1) / blockSize) := by
  cases fuel with
  | zero =>
    obtain ⟨n, rfl⟩ := Nat.exists_eq_succ_of_ne_zero (Nat.ne_of_gt hcount)
    cases h
  | succ fuel =>
    obtain ⟨t, chunk, rest, hcache, hchunk, hrest, rfl⟩ := readLoop_succ hcount h
    rw [hdrive] at hcache hchunk
    have hsame : t = s := by
      rw [cacheBlock, if_pos hcached.held.symm] at hcache
      exact (Option.some.inj hcache).symm
    subst hsame
    have hmod := Nat.mod_lt loc hbs
    have hsplit := Nat.div_add_mod' loc blockSize
    have hpart := @Cached.loadBytes_eq b t d (loc / blockSize) (loc % blockSize) chunk hcached
      (by rw [hother]; omega)
    rw [hother, hsplit] at hpart
    rw [Nat.mod_eq_of_lt (by omega)] at hrest
    rw [hdrive, hpart, ← hchunk]
    by_cases hmore : chunk < count
    · have hnext : (loc + chunk) / blockSize = loc / blockSize + 1 := (next_block hbs hchunk hmore).1
      have hfresh : Fresh b t drive ((loc + chunk) / b.blockSize drive) := by
        intro heq
        rw [hdrive, hnext, hcached.held] at heq
        omega
      obtain ⟨hbytes, hlast⟩ := readLoop_fresh (by omega) hfresh (by omega) hrest
      have hshown := hlast (by omega)
      rw [show loc + chunk + (count - chunk) = loc + count by omega, hdrive] at hshown
      have hbeyond : (loc + count - 1) / blockSize ≠ loc / blockSize := by
        have hle : (loc + chunk) / blockSize ≤ (loc + count - 1) / blockSize :=
          Nat.div_le_div_right (by omega)
        omega
      rw [hbytes, if_neg hbeyond]
      exact ⟨rfl, hshown⟩
    · have hdone : count - chunk = 0 := by omega
      have hblock : (loc + count - 1) / blockSize = loc / blockSize := by
        rw [Nat.div_eq_iff hbs]
        omega
      rw [hdone] at hrest ⊢
      obtain ⟨hempty, hstate⟩ : [] = rest ∧ t = s' := by
        cases fuel <;> exact Prod.mk.inj (Option.some.inj hrest)
      rw [if_pos hblock, ← hempty]
      exact ⟨rfl, hstate.symm⟩

/-! ## Runs of reads -/

/-- A call of `read`. -/
structure DiskRead where
  drive : ℕ
  loc : ℕ
  count : ℕ
  deriving DecidableEq, Repr

/-- A read that returns. -/
def DiskStep (b : Bios) (s : DiskCache) (e : DiskRead) (t : DiskCache) : Prop :=
  e.loc + e.count < 2 ^ 64 ∧ ∃ bytes, read b s e.drive e.loc e.count = some (bytes, t)

/-- The drive and the block the cache holds after one more read. -/
def heldAfter (blockSize : ℕ) (held : Option (ℕ × ℕ)) (e : DiskRead) : Option (ℕ × ℕ) :=
  if e.count = 0 then held
  else if (e.loc + e.count - 1) / blockSize = e.loc / blockSize ∧
      held.map Prod.snd = some (e.loc / blockSize) then held
  else some (e.drive, (e.loc + e.count - 1) / blockSize)

/-- The drive and the block the cache holds after some reads. -/
def heldBy (blockSize : ℕ) (reads : List DiskRead) : Option (ℕ × ℕ) :=
  reads.foldl (heldAfter blockSize) none

/-- The drive whose bytes a read begins with. -/
def sourceOf (blockSize : ℕ) (held : Option (ℕ × ℕ)) (drive loc : ℕ) : ℕ :=
  match held with
  | some (d, block) => if block = loc / blockSize then d else drive
  | none => drive

/-- The cache holds what it is said to hold. -/
def Holds (b : Bios) (s : DiskCache) : Option (ℕ × ℕ) → Prop
  | none => s.cachedBlock = cacheInvalid
  | some (drive, block) => Cached b s drive block

/-- One read: where its bytes come from and what the cache holds behind it. -/
theorem Holds.read {blockSize : ℕ} {held : Option (ℕ × ℕ)} (hbs : 1 < blockSize)
    (hdrive : b.blockSize drive = blockSize)
    (hsize : ∀ d block, held = some (d, block) → b.blockSize d = blockSize)
    (hheld : Holds b s held) (hloc : loc + count < 2 ^ 64)
    (h : read b s drive loc count = some (bytes, s')) :
    Holds b s' (heldAfter blockSize held ⟨drive, loc, count⟩) ∧
      bytes = loadBytes (b.content (sourceOf blockSize held drive loc))
          (min count (blockSize - loc % blockSize)) loc ++
        loadBytes (b.content drive) (count - min count (blockSize - loc % blockSize))
          (loc + min count (blockSize - loc % blockSize)) := by
  rw [Limine.read] at h
  split at h
  case isFalse => cases h
  rcases Nat.eq_zero_or_pos count with rfl | hcount
  · rw [readLoop] at h
    obtain ⟨rfl, rfl⟩ := Prod.mk.inj (Option.some.inj h)
    rw [heldAfter, if_pos rfl, Nat.zero_min, Nat.zero_sub]
    exact ⟨hheld, rfl⟩
  rw [heldAfter, if_neg (Nat.ne_of_gt hcount)]
  -- the block the read begins in is held, or a fresh one
  by_cases hblock : held.map Prod.snd = some (loc / blockSize)
  · obtain ⟨⟨d, block⟩, rfl, rfl⟩ := Option.map_eq_some_iff.1 hblock
    obtain ⟨hbytes, hstate⟩ := readLoop_stale (by omega) hdrive (hsize d _ rfl) hheld hcount hloc h
    refine ⟨?_, by simpa [sourceOf] using hbytes⟩
    split at hstate
    · next hwithin =>
      rw [if_pos ⟨hwithin, rfl⟩, hstate]
      exact hheld
    · next hbeyond =>
      rw [if_neg fun hboth => hbeyond hboth.1]
      exact hstate
  · have hfresh : Fresh b s drive (loc / b.blockSize drive) := by
      intro heq
      rw [hdrive] at heq
      cases held with
      | none =>
        have hinvalid : s.cachedBlock = 2 ^ 64 - 1 := hheld
        have hle : loc / blockSize ≤ loc / 2 := Nat.div_le_div_left hbs (by omega)
        omega
      | some pair =>
        obtain ⟨d, block⟩ := pair
        refine absurd ?_ hblock
        rw [heq, (hheld : Cached b s d block).held]
        rfl
    obtain ⟨hbytes, hlast⟩ := readLoop_fresh (by omega) hfresh hloc h
    have hshown := hlast hcount
    rw [hdrive] at hshown
    rw [if_neg fun hboth => hblock hboth.2]
    refine ⟨hshown, ?_⟩
    have hsource : sourceOf blockSize held drive loc = drive := by
      cases held with
      | none => rfl
      | some pair =>
        obtain ⟨d, block⟩ := pair
        exact if_neg fun heq => hblock (by rw [← heq]; rfl)
    rw [hsource, ← loadBytes_add, hbytes]
    congr 1
    omega

/-- The cache holds a block of a drive that was read. -/
theorem mem_of_heldBy {blockSize : ℕ} {reads : List DiskRead} {d block : ℕ}
    (h : heldBy blockSize reads = some (d, block)) : ∃ e ∈ reads, e.drive = d := by
  induction reads using List.reverseRecOn generalizing d block with
  | nil => cases h
  | append_singleton reads e ih =>
    have hbefore : ∀ {d block : ℕ}, heldBy blockSize reads = some (d, block) →
        ∃ e' ∈ reads ++ [e], e'.drive = d := fun heq => by
      obtain ⟨e', hmem, hdrive⟩ := ih heq
      exact ⟨e', List.mem_append_left _ hmem, hdrive⟩
    rw [heldBy, List.foldl_append] at h
    change heldAfter blockSize (heldBy blockSize reads) e = some (d, block) at h
    rw [heldAfter] at h
    split_ifs at h
    · exact hbefore h
    · exact hbefore h
    · exact ⟨e, by simp, (Prod.mk.inj (Option.some.inj h)).1⟩

/-- So it has the block size that all of them have. -/
theorem blockSize_of_heldBy {blockSize : ℕ} {reads : List DiskRead} {d block : ℕ}
    (hsize : ∀ e ∈ reads, b.blockSize e.drive = blockSize)
    (h : heldBy blockSize reads = some (d, block)) : b.blockSize d = blockSize := by
  obtain ⟨e, he, rfl⟩ := mem_of_heldBy h
  exact hsize e he

/-- After reads from drives of one block size the cache holds what `heldBy` says. -/
theorem holds_of_run {blockSize : ℕ} {reads : List DiskRead} {cache : Memory} (hbs : 1 < blockSize)
    (hsize : ∀ e ∈ reads, b.blockSize e.drive = blockSize)
    (h : Run (DiskStep b) (DiskCache.start cache) reads s) : Holds b s (heldBy blockSize reads) := by
  induction h with
  | nil => rfl
  | snoc _ hstep ih =>
    obtain ⟨hloc, bytes, hread⟩ := hstep
    have hsize' := fun e he => hsize e (List.mem_append_left _ he)
    rw [heldBy, List.foldl_append]
    exact ((ih hsize').read hbs (hsize _ (by simp))
      (fun _ _ hheld => blockSize_of_heldBy hsize' hheld) hloc hread).1

/-- In every run of reads from drives with sectors of one size, a read gives the bytes of its drive,
but up to the end of its first block those of the drive the cache holds that block of. A run of reads
of one drive is faithful, whatever the other drives are. -/
theorem read_of_run {reads : List DiskRead} {cache : Memory} (hbs : 1 < b.blockSize drive)
    (hrun : Run (DiskStep b) (DiskCache.start cache) reads s) (hloc : loc + count < 2 ^ 64)
    (h : read b s drive loc count = some (bytes, s')) :
    ((∀ e ∈ reads, b.blockSize e.drive = b.blockSize drive) →
      bytes = loadBytes
          (b.content (sourceOf (b.blockSize drive) (heldBy (b.blockSize drive) reads) drive loc))
          (min count (b.blockSize drive - loc % b.blockSize drive)) loc ++
        loadBytes (b.content drive) (count - min count (b.blockSize drive - loc % b.blockSize drive))
          (loc + min count (b.blockSize drive - loc % b.blockSize drive))) ∧
      ((∀ e ∈ reads, e.drive = drive) → bytes = loadBytes (b.content drive) count loc) := by
  have hbytes := fun hsize => ((holds_of_run hbs hsize hrun).read hbs rfl
    (fun _ _ hheld => blockSize_of_heldBy hsize hheld) hloc h).2
  refine ⟨hbytes, fun hall => ?_⟩
  have hsource : sourceOf (b.blockSize drive) (heldBy (b.blockSize drive) reads) drive loc = drive := by
    cases hheld : heldBy (b.blockSize drive) reads with
    | none => rfl
    | some pair =>
      obtain ⟨e, he, hdrive⟩ := @mem_of_heldBy _ reads pair.1 pair.2 hheld
      rw [sourceOf, ← hdrive, hall e he]
      exact ite_self drive
  rw [hbytes fun e he => by rw [hall e he], hsource, ← loadBytes_add]
  congr 1
  omega

/-- Two drives with sectors of 512 bytes, one of ones, the other of twos. -/
def twoDrives : Bios where
  present := fun drive => drive = 0x80 ∨ drive = 0x81
  bytesPerSect := fun _ => 512
  content := fun drive _ => if drive = 0x80 then 1 else 2
  readable := fun _ _ => true

/-- The partition tables of both are read one after the other. -/
theorem read_of_run_twoDrives : ∃ s' t, Run (DiskStep twoDrives) (.start fun _ => 0) [⟨0x80, 510, 2⟩] s' ∧
    read twoDrives s' 0x81 510 2 = some ([1, 1], t) := by
  have hfirst : ∃ bytes s', read twoDrives (.start fun _ => 0) 0x80 510 2 = some (bytes, s') ∧
      ∃ bytes t, read twoDrives s' 0x81 510 2 = some (bytes, t) := by
    simp [read, readLoop, cacheBlock, twoDrives, Bios.blockSize, blockSizeInSectors, DiskCache.start,
      cacheInvalid]
  obtain ⟨bytes, s', hfirst, bytes', t, hread⟩ := hfirst
  have hrun : Run (DiskStep twoDrives) (.start fun _ => 0) [⟨0x80, 510, 2⟩] s' :=
    .single ⟨by decide, bytes, hfirst⟩
  have hsize : ∀ d, twoDrives.blockSize d = 8192 := by simp [twoDrives, Bios.blockSize, blockSizeInSectors]
  have h := (read_of_run (by rw [hsize]; decide) hrun (by decide) hread).1 fun e _ => by
    rw [hsize, hsize]
  refine ⟨s', t, hrun, ?_⟩
  rw [hread, h, hsize]
  simp [heldBy, heldAfter, sourceOf, twoDrives, loadBytes]

end Orionis.Limine
