import Mathlib.Data.List.Nodup
import Orionis.Foundations.ChainedBlocks
import Orionis.Limine.Disk

/-!
# Reading files of a FAT32 volume

`fat32_read` reads clusters that follow each other on the disk in one piece. To go on behind such a
piece it takes the successor of its first cluster, and not of its last one, so the file is read right
as long as the read ends in the first piece that is longer than one cluster.
-/

namespace Orionis.Limine

open Orionis.Foundations

/-! ## The source -/

/-- The fields of `fat32_context` that reading uses, with the first sector of its partition. -/
structure Fat32Context where
  drive : ℕ
  firstSect : ℕ
  sectorsPerCluster : ℕ
  fatStartLba : ℕ
  dataStartLba : ℕ
  deriving DecidableEq, Repr

/-- `cluster_size`. -/
def Fat32Context.clusterSize (ctx : Fat32Context) : ℕ := ctx.sectorsPerCluster * 512

/-- `fat32_read_cluster_from_map`. -/
def fat32ReadClusterFromMap (b : Bios) (ctx : Fat32Context) (s : DiskCache) (cluster : ℕ) :
    Option (ℕ × DiskCache) := do
  let sector := cluster / 128
  let offset := cluster % 128
  let (bytes, s) ← readPartition b s ctx.drive ctx.firstSect ((ctx.fatStartLba + sector) * 512 % 2 ^ 32) 512
  return (loadLE (fun i => bytes.getD i 0) 4 (4 * offset) % 2 ^ 28, s)

/-- `fat32_load_fat_cluster_to_memory`. -/
def fat32LoadFatClusterToMemory (b : Bios) (ctx : Fat32Context) (s : DiskCache)
    (cluster offset limit : ℕ) : Option (List UInt8 × DiskCache) :=
  let sector := (ctx.dataStartLba + (cluster + 2 ^ 32 - 2) * ctx.sectorsPerCluster) % 2 ^ 32
  readPartition b s ctx.drive ctx.firstSect (sector * 512 + offset % 2 ^ 32) (limit % 2 ^ 32)

/-- The first loop of `fat32_read`: the cluster and what is left of `loc`. -/
def skipClusters (b : Bios) (ctx : Fat32Context) :
    (fuel : ℕ) → DiskCache → (cluster loc : ℕ) → Option (ℕ × ℕ × DiskCache)
  | 0, _, _, _ => none
  | fuel + 1, s, cluster, loc =>
    if loc ≥ ctx.clusterSize then do
      let (cluster, s) ← fat32ReadClusterFromMap b ctx s cluster
      skipClusters b ctx fuel s cluster (loc - ctx.clusterSize)
    else some (cluster, loc, s)

/-- The loop that counts `non_fragmented_clusters`, beyond the first one. -/
def nonFragmented (b : Bios) (ctx : Fat32Context) :
    (rounds : ℕ) → DiskCache → (cluster : ℕ) → Option (ℕ × DiskCache)
  | 0, s, _ => some (0, s)
  | rounds + 1, s, cluster => do
    let (nextCluster, s) ← fat32ReadClusterFromMap b ctx s cluster
    if nextCluster ≠ (cluster + 1) % 2 ^ 32 then return (0, s)
    else do
      let (n, s) ← nonFragmented b ctx rounds s ((cluster + 1) % 2 ^ 32)
      return (n + 1, s)

/-- The second loop of `fat32_read`, with the bytes it puts into the buffer one after the other. -/
def readClusters (b : Bios) (ctx : Fat32Context) :
    (fuel : ℕ) → DiskCache → (cluster loc count : ℕ) → Option (List UInt8 × DiskCache)
  | 0, _, _, _, _ => none
  | fuel + 1, s, cluster, loc, count => do
    let (more, s) ← nonFragmented b ctx (count / ctx.clusterSize) s cluster
    let piece := ((more + 1) * ctx.clusterSize % 2 ^ 32 + 2 ^ 64 - loc) % 2 ^ 64
    let currentRead := if count > piece then piece else count
    let (bytes, s) ← fat32LoadFatClusterToMemory b ctx s cluster loc currentRead
    if count - currentRead = 0 then return (bytes, s)
    else do
      let (cluster, s) ← fat32ReadClusterFromMap b ctx s cluster
      if 0x00000002 ≤ cluster ∧ cluster ≤ 0x0FFFFFEF then do
        let (rest, s) ← readClusters b ctx fuel s cluster 0 (count - currentRead)
        return (bytes ++ rest, s)
      else return (bytes, s)

/-- `fat32_read`. Every round of its loops takes something off `loc` or `count`. -/
def fat32Read (b : Bios) (ctx : Fat32Context) (s : DiskCache) (firstCluster loc count : ℕ) :
    Option (List UInt8 × DiskCache) := do
  let (cluster, loc, s) ← skipClusters b ctx (loc + 1) s firstCluster loc
  readClusters b ctx (count + 1) s cluster loc count

/-! ## The volume -/

/-- The bytes of the partition. -/
def Fat32Context.volume (b : Bios) (ctx : Fat32Context) : Memory :=
  fun x => b.content ctx.drive (ctx.firstSect * 512 + x)

/-- The entry of a cluster in the table. -/
def Fat32Context.next (b : Bios) (ctx : Fat32Context) (cluster : ℕ) : ℕ :=
  loadLE (ctx.volume b) 4 (ctx.fatStartLba * 512 + 4 * cluster) % 2 ^ 28

/-- Where a cluster begins. -/
def Fat32Context.addr (ctx : Fat32Context) (cluster : ℕ) : ℕ :=
  (ctx.dataStartLba + (cluster - 2) * ctx.sectorsPerCluster) * 512

/-- The table and the partition lie where 32-bit sector numbers reach. -/
structure Fat32Context.Fits (b : Bios) (ctx : Fat32Context) : Prop where
  block : 1 < b.blockSize ctx.drive
  cluster : 0 < ctx.sectorsPerCluster
  clusterSmall : ctx.sectorsPerCluster < 2 ^ 8
  table : ctx.fatStartLba < 2 ^ 22
  partition : ctx.firstSect * 512 < 2 ^ 63

variable {b : Bios} {ctx : Fat32Context} {s s' t : DiskCache} {cluster loc count fuel c : ℕ}
  {bytes : List UInt8}

/-- A read of the partition gives its bytes. -/
theorem readPartition_spec (hfits : ctx.Fits b) (howned : OwnedBy b s ctx.drive) (hloc : loc + count < 2 ^ 62)
    (h : readPartition b s ctx.drive ctx.firstSect loc count = some (bytes, s')) :
    bytes = loadBytes (ctx.volume b) count loc ∧ OwnedBy b s' ctx.drive := by
  have hpart := hfits.partition
  rw [readPartition, Nat.mod_eq_of_lt (by omega)] at h
  obtain ⟨hbytes, hnext⟩ := howned.read hfits.block (by omega) h
  refine ⟨hbytes.trans (loadBytes_shift fun i _ => ?_), hnext⟩
  rw [Fat32Context.volume, Nat.add_comm loc, Nat.add_assoc]

/-- A byte of a chunk. -/
theorem getD_loadBytes (m : Memory) {n a i : ℕ} (hi : i < n) : (loadBytes m n a).getD i 0 = m (a + i) := by
  induction n generalizing a i with
  | zero => exact absurd hi (Nat.not_lt_zero i)
  | succ n ih =>
    cases i with
    | zero => rfl
    | succ i =>
      rw [loadBytes, List.getD_cons_succ, ih (by omega)]
      exact congrArg m (by omega)

/-- The table is read right. -/
theorem fat32ReadClusterFromMap_spec {value : ℕ} (hfits : ctx.Fits b) (howned : OwnedBy b s ctx.drive)
    (hcluster : cluster < 2 ^ 28) (h : fat32ReadClusterFromMap b ctx s cluster = some (value, s')) :
    value = ctx.next b cluster ∧ OwnedBy b s' ctx.drive := by
  have htable := hfits.table
  obtain ⟨⟨bytes, t⟩, hread, h⟩ := Option.bind_eq_some_iff.1 h
  obtain ⟨rfl, rfl⟩ := Prod.mk.inj (Option.some.inj h)
  rw [Nat.mod_eq_of_lt (by omega)] at hread
  obtain ⟨hbytes, hnext⟩ := readPartition_spec hfits howned (by omega) hread
  refine ⟨?_, hnext⟩
  have hentry : loadLE (fun i => bytes.getD i 0) 4 (4 * (cluster % 128)) =
      loadLE (ctx.volume b) 4 (ctx.fatStartLba * 512 + 4 * cluster) := by
    refine loadLE_shift fun i hi => ?_
    rw [hbytes, getD_loadBytes _ (by omega)]
    exact congrArg (ctx.volume b) (by omega)
  rw [Fat32Context.next, hentry]

/-- The table names clusters by 28 bits. -/
theorem next_lt (b : Bios) (ctx : Fat32Context) (cluster : ℕ) : ctx.next b cluster < 2 ^ 28 :=
  Nat.mod_lt _ (by decide)

/-- Clusters lie one behind the other. -/
theorem addr_succ (ctx : Fat32Context) (hc : 2 ≤ c) : ctx.addr (c + 1) = ctx.addr c + ctx.clusterSize := by
  obtain ⟨k, rfl⟩ := Nat.exists_eq_add_of_le hc
  rw [Fat32Context.addr, Fat32Context.addr, Fat32Context.clusterSize, show 2 + k + 1 - 2 = k + 1 by omega,
    Nat.add_sub_cancel_left, Nat.succ_mul]
  ring

/-- The loop that looks for a piece counts the clusters that follow each other. -/
theorem nonFragmented_spec {rounds n : ℕ} (hfits : ctx.Fits b) (howned : OwnedBy b s ctx.drive)
    (hcluster : cluster < 2 ^ 28) (h : nonFragmented b ctx rounds s cluster = some (n, s')) :
    n = consecutive (ctx.next b) cluster rounds ∧ OwnedBy b s' ctx.drive := by
  induction rounds generalizing s cluster n with
  | zero =>
    obtain ⟨rfl, rfl⟩ := Prod.mk.inj (Option.some.inj h)
    exact ⟨rfl, howned⟩
  | succ rounds ih =>
    rw [nonFragmented, Nat.mod_eq_of_lt (by omega)] at h
    obtain ⟨⟨nextCluster, t⟩, hread, h⟩ := Option.bind_eq_some_iff.1 h
    obtain ⟨rfl, ht⟩ := fat32ReadClusterFromMap_spec hfits howned hcluster hread
    rw [consecutive]
    dsimp only at h
    split at h
    · next hne =>
      obtain ⟨rfl, rfl⟩ := Prod.mk.inj (Option.some.inj h)
      rw [if_neg hne]
      exact ⟨rfl, ht⟩
    · next heq =>
      have hnext := next_lt b ctx cluster
      obtain ⟨⟨k, u⟩, hrest, h⟩ := Option.bind_eq_some_iff.1 h
      obtain ⟨rfl, rfl⟩ := Prod.mk.inj (Option.some.inj h)
      obtain ⟨rfl, hu⟩ := ih ht (by omega) hrest
      rw [if_pos (not_not.1 heq)]
      exact ⟨rfl, hu⟩

/-- A piece of the data area is read right. -/
theorem fat32LoadFatClusterToMemory_spec (hfits : ctx.Fits b) (howned : OwnedBy b s ctx.drive)
    (hc : 2 ≤ c) (hdata : ctx.dataStartLba + (c - 2) * ctx.sectorsPerCluster < 2 ^ 32)
    (hloc : loc < 2 ^ 32) (hcount : count < 2 ^ 32)
    (h : fat32LoadFatClusterToMemory b ctx s c loc count = some (bytes, s')) :
    bytes = loadBytes (ctx.volume b) count (ctx.addr c + loc) ∧ OwnedBy b s' ctx.drive := by
  have hwrap : (ctx.dataStartLba + (c + 2 ^ 32 - 2) * ctx.sectorsPerCluster) % 2 ^ 32 =
      ctx.dataStartLba + (c - 2) * ctx.sectorsPerCluster := by
    rw [show c + 2 ^ 32 - 2 = (c - 2) + 2 ^ 32 by omega, Nat.add_mul, ← Nat.add_assoc,
      Nat.add_mul_mod_self_left, Nat.mod_eq_of_lt hdata]
  rw [fat32LoadFatClusterToMemory, hwrap, Nat.mod_eq_of_lt hloc, Nat.mod_eq_of_lt hcount] at h
  have haddr : ctx.addr c < 2 ^ 41 := by
    rw [Fat32Context.addr]
    omega
  rw [← Fat32Context.addr] at h
  exact readPartition_spec hfits howned (by omega) h

/-! ## Files -/

/-- The clusters of a file lie in the data area. -/
def Fat32Context.Clusters (ctx : Fat32Context) (clusters : List ℕ) : Prop :=
  ∀ c ∈ clusters, 2 ≤ c ∧ c ≤ 0x0FFFFFEF ∧ ctx.dataStartLba + (c - 2) * ctx.sectorsPerCluster < 2 ^ 32

/-- How long the piece is that a round reads from. -/
def Fat32Context.piece (b : Bios) (ctx : Fat32Context) (c count : ℕ) : ℕ :=
  (consecutive (ctx.next b) c (count / ctx.clusterSize) + 1) * ctx.clusterSize

/-- The rest of a read ends in the first piece that is longer than one cluster. -/
def DirectRead (b : Bios) (ctx : Fat32Context) : (clusters : List ℕ) → (loc count : ℕ) → Prop
  | [], _, _ => False
  | c :: rest, loc, count => loc + count ≤ ctx.piece b c count ∨
      ctx.piece b c count = ctx.clusterSize ∧ DirectRead b ctx rest 0 (count - (ctx.clusterSize - loc))

instance decidableDirectRead (b : Bios) (ctx : Fat32Context) :
    (clusters : List ℕ) → (loc count : ℕ) → Decidable (DirectRead b ctx clusters loc count)
  | [], _, _ => inferInstanceAs (Decidable False)
  | c :: rest, loc, count =>
    have := decidableDirectRead b ctx rest 0 (count - (ctx.clusterSize - loc))
    inferInstanceAs (Decidable (loc + count ≤ ctx.piece b c count ∨
      ctx.piece b c count = ctx.clusterSize ∧ DirectRead b ctx rest 0 (count - (ctx.clusterSize - loc))))

/-- One round: the end of the read, or a piece and a round on the successor of its first cluster. -/
theorem readClusters_succ (hfits : ctx.Fits b) (howned : OwnedBy b s ctx.drive)
    (hclusters : ctx.Clusters [c]) (hloc : loc < ctx.clusterSize) (hcount : count < 2 ^ 31)
    (h : readClusters b ctx (fuel + 1) s c loc count = some (bytes, s')) :
    (loc + count ≤ ctx.piece b c count ∧ OwnedBy b s' ctx.drive ∧
      bytes = loadBytes (ctx.volume b) count (ctx.addr c + loc)) ∨
    ∃ t rest, ctx.piece b c count < loc + count ∧ OwnedBy b t ctx.drive ∧
      bytes = loadBytes (ctx.volume b) (ctx.piece b c count - loc) (ctx.addr c + loc) ++ rest ∧
      (2 ≤ ctx.next b c ∧ ctx.next b c ≤ 0x0FFFFFEF →
        readClusters b ctx fuel t (ctx.next b c) 0 (count - (ctx.piece b c count - loc)) =
          some (rest, s')) := by
  obtain ⟨hc, hlast, hdata⟩ := hclusters c (List.mem_singleton_self c)
  have hsize : ctx.clusterSize < 2 ^ 17 := by
    have hsmall := hfits.clusterSmall
    rw [Fat32Context.clusterSize]
    omega
  rw [readClusters] at h
  obtain ⟨⟨more, t⟩, hmore, h⟩ := Option.bind_eq_some_iff.1 h
  obtain ⟨rfl, ht⟩ := nonFragmented_spec hfits howned (by omega) hmore
  have hle := @consecutive_le (ctx.next b) c (count / ctx.clusterSize)
  have hpiece : (consecutive (ctx.next b) c (count / ctx.clusterSize) + 1) * ctx.clusterSize <
      2 ^ 32 := by
    have hdiv := Nat.div_mul_le_self count ctx.clusterSize
    have hmul := Nat.mul_le_mul_right ctx.clusterSize hle
    rw [Nat.succ_mul]
    omega
  have hone : ctx.clusterSize ≤ (consecutive (ctx.next b) c (count / ctx.clusterSize) + 1) *
      ctx.clusterSize := Nat.le_mul_of_pos_left _ (Nat.succ_pos _)
  dsimp only at h
  rw [Nat.mod_eq_of_lt hpiece, ← Fat32Context.piece] at h
  rw [← Fat32Context.piece] at hpiece hone
  have hwrap : (ctx.piece b c count + 2 ^ 64 - loc) % 2 ^ 64 = ctx.piece b c count - loc := by omega
  rw [hwrap] at h
  obtain ⟨⟨first, u⟩, hload, h⟩ := Option.bind_eq_some_iff.1 h
  dsimp only at h
  by_cases hend : loc + count ≤ ctx.piece b c count
  · have hread : (if count > ctx.piece b c count - loc then ctx.piece b c count - loc else count) =
        count := if_neg (by omega)
    rw [hread] at hload h
    obtain ⟨hfirst, hu⟩ := fat32LoadFatClusterToMemory_spec hfits ht hc hdata (by omega) (by omega) hload
    rw [if_pos (Nat.sub_self count)] at h
    obtain ⟨rfl, rfl⟩ := Prod.mk.inj (Option.some.inj h)
    exact .inl ⟨hend, hu, hfirst⟩
  · have hread : (if count > ctx.piece b c count - loc then ctx.piece b c count - loc else count) =
        ctx.piece b c count - loc := if_pos (by omega)
    rw [hread] at hload h
    obtain ⟨hfirst, hu⟩ := fat32LoadFatClusterToMemory_spec hfits ht hc hdata (by omega) (by omega) hload
    rw [if_neg (by omega)] at h
    obtain ⟨⟨d, v⟩, hnext, h⟩ := Option.bind_eq_some_iff.1 h
    obtain ⟨rfl, hv⟩ := fat32ReadClusterFromMap_spec hfits hu (by omega) hnext
    dsimp only at h
    split at h
    · obtain ⟨⟨rest, w⟩, hrest, h⟩ := Option.bind_eq_some_iff.1 h
      obtain ⟨rfl, rfl⟩ := Prod.mk.inj (Option.some.inj h)
      exact .inr ⟨v, rest, by omega, hv, by rw [hfirst], fun _ => hrest⟩
    · next hout =>
      obtain ⟨rfl, rfl⟩ := Prod.mk.inj (Option.some.inj h)
      exact .inr ⟨v, [], by omega, hv, by rw [hfirst, List.append_nil], fun hin => absurd hin hout⟩

/-- The bytes of a file. -/
def Fat32Context.fileBytes (b : Bios) (ctx : Fat32Context) (clusters : List ℕ) : List UInt8 :=
  blockBytes (ctx.volume b) ctx.clusterSize ctx.addr clusters

/-- Two clusters of a file are not the same, but the read gives the first byte of one where the file has
the first byte of the other. -/
def ReadsAnother (b : Bios) (ctx : Fat32Context) (clusters : List ℕ) (bytes file : List UInt8) : Prop :=
  ∃ i : ℕ, ∃ c ∈ clusters, ∃ d ∈ clusters, c ≠ d ∧ bytes[i]? = some (ctx.volume b (ctx.addr c)) ∧
    file[i]? = some (ctx.volume b (ctx.addr d))

variable {rest clusters : List ℕ}

/-- In a piece longer than one cluster the successor of the first cluster is its second one, and the
file goes on with another. -/
theorem piece_behind (hchain : Chained (ctx.next b) (c :: rest)) (hnodup : (c :: rest).Nodup) {k : ℕ}
    (hlong : 0 < consecutive (ctx.next b) c k)
    (hmore : consecutive (ctx.next b) c k + 1 < (c :: rest).length) :
    ∃ d ∈ c :: rest, (c :: rest)[consecutive (ctx.next b) c k + 1]? = some d ∧ ctx.next b c ≠ d ∧
      ctx.next b c ∈ c :: rest := by
  obtain ⟨d, hd⟩ : ∃ d, (c :: rest)[consecutive (ctx.next b) c k + 1]? = some d :=
    ⟨_, List.getElem?_eq_getElem hmore⟩
  cases rest with
  | nil => simp at hmore
  | cons e rest =>
    have he : ctx.next b c = e := (List.isChain_cons_cons.1 hchain).1
    refine ⟨d, List.mem_of_getElem? hd, hd, ?_, he ▸ by simp⟩
    rintro rfl
    have hsame := (List.nodup_iff_getElem?_ne_getElem?.1 hnodup) 1 (consecutive (ctx.next b) c k + 1)
      (by omega) hmore
    rw [hd, he] at hsame
    exact hsame rfl

/-- The first byte a round gives is the first byte of its cluster. -/
theorem readClusters_head (hfits : ctx.Fits b) (howned : OwnedBy b s ctx.drive)
    (hclusters : ctx.Clusters [c]) (hpos : 0 < count) (hcount : count < 2 ^ 31)
    (h : readClusters b ctx fuel s c 0 count = some (bytes, s')) :
    bytes[0]? = some (ctx.volume b (ctx.addr c)) := by
  have hsize : 0 < ctx.clusterSize := Nat.mul_pos hfits.cluster (by decide)
  cases fuel with
  | zero => cases h
  | succ fuel =>
    have hfirst : ∀ n, 0 < n → (loadBytes (ctx.volume b) n (ctx.addr c + 0))[0]? =
        some (ctx.volume b (ctx.addr c)) := by
      intro n hn
      obtain ⟨k, rfl⟩ := Nat.exists_eq_succ_of_ne_zero (Nat.ne_of_gt hn)
      rw [Nat.add_zero, loadBytes, List.getElem?_cons_zero]
    obtain ⟨-, -, rfl⟩ | ⟨t, rest, -, -, rfl, -⟩ :=
      readClusters_succ hfits howned hclusters hsize hcount h
    · exact hfirst count hpos
    · have hpiece : 0 < ctx.piece b c count - 0 := Nat.mul_pos (Nat.succ_pos _) hsize
      rw [List.getElem?_append_left (by rwa [length_loadBytes])]
      exact hfirst _ hpiece

/-- From its first cluster on, the read is right when it is direct, and otherwise it gives the bytes of
another cluster of the file. -/
theorem readClusters_spec (hfits : ctx.Fits b) (howned : OwnedBy b s ctx.drive)
    (hclusters : ctx.Clusters (c :: rest)) (hchain : Chained (ctx.next b) (c :: rest))
    (hnodup : (c :: rest).Nodup) (hloc : loc < ctx.clusterSize) (hcount : count < 2 ^ 31)
    (hfile : loc + count ≤ (c :: rest).length * ctx.clusterSize)
    (h : readClusters b ctx fuel s c loc count = some (bytes, s')) :
    (DirectRead b ctx (c :: rest) loc count → OwnedBy b s' ctx.drive ∧
      bytes = ((ctx.fileBytes b (c :: rest)).drop loc).take count) ∧
    (¬ DirectRead b ctx (c :: rest) loc count →
      ReadsAnother b ctx (c :: rest) bytes (((ctx.fileBytes b (c :: rest)).drop loc).take count)) := by
  induction fuel generalizing s c rest loc count bytes with
  | zero => cases h
  | succ fuel ih =>
    have hsize : 0 < ctx.clusterSize := Nat.mul_pos hfits.cluster (by decide)
    have hhead : ctx.Clusters [c] := fun d hd => hclusters d (by simp [List.mem_singleton.1 hd])
    have hlow := (hclusters c List.mem_cons_self).1
    obtain ⟨hend, hs', rfl⟩ | ⟨t, behind, hmore, ht, rfl, hrec⟩ :=
      readClusters_succ hfits howned hhead hloc hcount h
    · refine ⟨fun _ => ⟨hs', ?_⟩, fun hnot => absurd (.inl hend) hnot⟩
      exact (take_drop_consecutive (fun _ => addr_succ ctx) hchain hlow hend hfile).symm
    -- the file goes on behind the piece
    have hblocks : consecutive (ctx.next b) c (count / ctx.clusterSize) + 1 < (c :: rest).length := by
      refine Nat.lt_of_mul_lt_mul_right (a := ctx.clusterSize) ?_
      exact hmore.trans_le hfile
    rcases Nat.eq_zero_or_pos (consecutive (ctx.next b) c (count / ctx.clusterSize)) with hone | hlong
    · have hpiece : ctx.piece b c count = ctx.clusterSize := by
        rw [Fat32Context.piece, hone, Nat.zero_add, Nat.one_mul]
      rw [hpiece] at hmore hrec ⊢
      cases rest with
      | nil => simp at hblocks
      | cons d rest =>
        obtain ⟨hd, hrest⟩ := List.isChain_cons_cons.1 hchain
        have hdrange := hclusters d (by simp)
        rw [hd] at hrec
        have hfile' : 0 + (count - (ctx.clusterSize - loc)) ≤ (d :: rest).length * ctx.clusterSize := by
          rw [List.length_cons, Nat.succ_mul] at hfile
          omega
        obtain ⟨hright, hwrong⟩ := ih ht (fun e he => hclusters e (List.mem_cons_of_mem _ he)) hrest
          (List.nodup_cons.1 hnodup).2 hsize (by omega) hfile' (hrec ⟨hdrange.1, hdrange.2.1⟩)
        have hsplit : ((ctx.fileBytes b (c :: d :: rest)).drop loc).take count =
            loadBytes (ctx.volume b) (ctx.clusterSize - loc) (ctx.addr c + loc) ++
              ((ctx.fileBytes b (d :: rest)).drop 0).take (count - (ctx.clusterSize - loc)) := by
          rw [Fat32Context.fileBytes, blockBytes_cons,
            List.drop_append_of_le_length (by rw [length_loadBytes]; omega), List.take_append,
            List.length_drop, length_loadBytes, List.drop_zero,
            List.take_of_length_le (by rw [List.length_drop, length_loadBytes]; omega)]
          congr 1
          rw [← take_drop_loadBytes (show loc + (ctx.clusterSize - loc) ≤ ctx.clusterSize by omega),
            List.take_of_length_le (by rw [List.length_drop, length_loadBytes])]
        have hdirect : DirectRead b ctx (c :: d :: rest) loc count ↔
            DirectRead b ctx (d :: rest) 0 (count - (ctx.clusterSize - loc)) := by
          rw [DirectRead, hpiece]
          exact ⟨fun hor => hor.elim (fun hle => absurd hle (by omega)) And.right, fun hd => .inr ⟨rfl, hd⟩⟩
        rw [hdirect, hsplit]
        refine ⟨fun hd => ?_, fun hnot => ?_⟩
        · obtain ⟨hs', hbytes⟩ := hright hd
          exact ⟨hs', by rw [hbytes]⟩
        · obtain ⟨i, e, he, f, hf, hne, hread, hshould⟩ := hwrong hnot
          refine ⟨ctx.clusterSize - loc + i, e, List.mem_cons_of_mem _ he, f, List.mem_cons_of_mem _ hf,
            hne, ?_, ?_⟩
          · rw [List.getElem?_append_right (by rw [length_loadBytes]; omega), length_loadBytes,
              Nat.add_sub_cancel_left, hread]
          · rw [List.getElem?_append_right (by rw [length_loadBytes]; omega), length_loadBytes,
              Nat.add_sub_cancel_left, hshould]
    · obtain ⟨d, hdmem, hd, hne, hsecond⟩ := piece_behind hchain hnodup hlong hblocks
      have hpiece : ctx.clusterSize < ctx.piece b c count := by
        rw [Fat32Context.piece, Nat.succ_mul]
        exact Nat.lt_add_of_pos_left (Nat.mul_pos hlong hsize)
      refine ⟨fun hdirect => absurd hdirect ?_, fun _ => ?_⟩
      · rw [DirectRead]
        omega
      have hrange := hclusters _ hsecond
      have hbehind := readClusters_head hfits ht (fun e he => by rwa [List.mem_singleton.1 he])
        (by omega) (by omega) (hrec ⟨hrange.1, hrange.2.1⟩)
      refine ⟨ctx.piece b c count - loc, _, hsecond, d, hdmem, hne, ?_, ?_⟩
      · rw [List.getElem?_append_right (by rw [length_loadBytes]), length_loadBytes, Nat.sub_self, hbehind]
      · rw [List.getElem?_take, if_pos (by omega), List.getElem?_drop,
          show loc + (ctx.piece b c count - loc) = ctx.piece b c count by omega]
        exact getElem?_blockBytes hsize hd

/-- The clusters in front of the read are skipped. -/
theorem skipClusters_spec {d offset : ℕ} (hfits : ctx.Fits b) (howned : OwnedBy b s ctx.drive)
    (hclusters : ctx.Clusters (c :: rest)) (hchain : Chained (ctx.next b) (c :: rest))
    (hloc : loc < (c :: rest).length * ctx.clusterSize)
    (h : skipClusters b ctx fuel s c loc = some (d, offset, s')) :
    OwnedBy b s' ctx.drive ∧ offset = loc % ctx.clusterSize ∧
      ∃ behind, (c :: rest).drop (loc / ctx.clusterSize) = d :: behind := by
  have hsize : 0 < ctx.clusterSize := Nat.mul_pos hfits.cluster (by decide)
  induction fuel generalizing s c rest loc with
  | zero => cases h
  | succ fuel ih =>
    rw [skipClusters] at h
    split at h
    · next hge =>
      obtain ⟨⟨e, t⟩, hread, h⟩ := Option.bind_eq_some_iff.1 h
      have hlow := (hclusters c List.mem_cons_self).2.1
      obtain ⟨rfl, ht⟩ := fat32ReadClusterFromMap_spec hfits howned (by omega) hread
      cases rest with
      | nil =>
        rw [List.length_singleton, Nat.one_mul] at hloc
        omega
      | cons f rest =>
        obtain ⟨hf, hrest⟩ := List.isChain_cons_cons.1 hchain
        rw [List.length_cons, Nat.succ_mul] at hloc
        rw [hf] at h
        obtain ⟨hs', hoffset, behind, hbehind⟩ := ih ht
          (fun e he => hclusters e (List.mem_cons_of_mem _ he)) hrest (by omega) h
        refine ⟨hs', ?_, behind, ?_⟩
        · rw [hoffset, Nat.mod_eq_sub_mod hge]
        · rw [Nat.div_eq_sub_div hsize hge, List.drop_succ_cons, hbehind]
    · next hlt =>
      obtain ⟨rfl, hrest⟩ := Prod.mk.inj (Option.some.inj h)
      obtain ⟨rfl, rfl⟩ := Prod.mk.inj hrest
      rw [Nat.div_eq_of_lt (by omega), Nat.mod_eq_of_lt (by omega)]
      exact ⟨howned, rfl, rest, rfl⟩

/-! ## Reads return -/

/-- Reading an entry of the table returns. -/
theorem fat32ReadClusterFromMap_isSome (hready : b.Ready ctx.drive) :
    ∃ value t, fat32ReadClusterFromMap b ctx s cluster = some (value, t) := by
  obtain ⟨⟨bytes, t⟩, hread⟩ := Option.isSome_iff_exists.1
    (@read_isSome b s ctx.drive (((ctx.fatStartLba + cluster / 128) * 512 % 2 ^ 32 +
      ctx.firstSect * 512) % 2 ^ 64) 512 hready)
  rw [fat32ReadClusterFromMap, readPartition, hread]
  exact ⟨_, t, rfl⟩

/-- Reading from a cluster returns. -/
theorem fat32LoadFatClusterToMemory_isSome (hready : b.Ready ctx.drive) :
    ∃ bytes t, fat32LoadFatClusterToMemory b ctx s cluster loc count = some (bytes, t) := by
  obtain ⟨⟨bytes, t⟩, hread⟩ := Option.isSome_iff_exists.1 (@read_isSome b s ctx.drive _ _ hready)
  exact ⟨bytes, t, hread⟩

/-- Counting consecutive clusters returns, with a round for each of them at most. -/
theorem nonFragmented_isSome {rounds : ℕ} (hready : b.Ready ctx.drive) :
    ∃ n t, nonFragmented b ctx rounds s cluster = some (n, t) ∧ n ≤ rounds := by
  induction rounds generalizing s cluster with
  | zero => exact ⟨0, s, rfl, le_refl 0⟩
  | succ rounds ih =>
    obtain ⟨value, t, hread⟩ := @fat32ReadClusterFromMap_isSome b ctx s cluster hready
    obtain ⟨n, u, hrest, hle⟩ := @ih t ((cluster + 1) % 2 ^ 32)
    rw [nonFragmented, hread]
    simp only [Option.bind_eq_bind, Option.bind_some, hrest]
    split
    · exact ⟨0, t, rfl, Nat.zero_le _⟩
    · exact ⟨n + 1, u, rfl, Nat.succ_le_succ hle⟩

/-- Skipping clusters returns inside one of them. -/
theorem skipClusters_isSome (hfits : ctx.Fits b) (hready : b.Ready ctx.drive) (hfuel : loc < fuel) :
    ∃ d offset t, skipClusters b ctx fuel s cluster loc = some (d, offset, t) ∧
      offset < ctx.clusterSize := by
  have hsize : 0 < ctx.clusterSize := Nat.mul_pos hfits.cluster (by decide)
  induction fuel generalizing s cluster loc with
  | zero => exact absurd hfuel (Nat.not_lt_zero _)
  | succ fuel ih =>
    rw [skipClusters]
    split
    · obtain ⟨value, t, hread⟩ := @fat32ReadClusterFromMap_isSome b ctx s cluster hready
      rw [hread]
      exact @ih t value (loc - ctx.clusterSize) (by omega)
    · next hlt => exact ⟨cluster, loc, s, rfl, by omega⟩

/-- With a round for each byte the loop over the pieces returns. -/
theorem readClusters_isSome (hfits : ctx.Fits b) (hready : b.Ready ctx.drive) (hcount : count < 2 ^ 31)
    (hloc : loc < ctx.clusterSize) (hfuel : count < fuel) :
    (readClusters b ctx fuel s cluster loc count).isSome := by
  have hsize : 0 < ctx.clusterSize := Nat.mul_pos hfits.cluster (by decide)
  have hsmall : ctx.clusterSize < 2 ^ 17 := by
    have hspc := hfits.clusterSmall
    rw [Fat32Context.clusterSize]
    omega
  induction fuel generalizing s cluster loc count with
  | zero => exact absurd hfuel (Nat.not_lt_zero _)
  | succ fuel ih =>
    obtain ⟨n, t, hpieces, hle⟩ := @nonFragmented_isSome b ctx s cluster (count / ctx.clusterSize) hready
    rw [readClusters, hpieces]
    simp only [Option.bind_eq_bind, Option.bind_some]
    have hpiece : (n + 1) * ctx.clusterSize < 2 ^ 32 := by
      have hdiv := Nat.div_mul_le_self count ctx.clusterSize
      have hmul := Nat.mul_le_mul_right ctx.clusterSize hle
      rw [Nat.succ_mul]
      omega
    have hone : ctx.clusterSize ≤ (n + 1) * ctx.clusterSize := Nat.le_mul_of_pos_left _ (Nat.succ_pos _)
    rw [Nat.mod_eq_of_lt hpiece]
    have hwrap : ((n + 1) * ctx.clusterSize + 2 ^ 64 - loc) % 2 ^ 64 = (n + 1) * ctx.clusterSize - loc := by
      omega
    rw [hwrap]
    generalize hread : (if count > (n + 1) * ctx.clusterSize - loc then (n + 1) * ctx.clusterSize - loc
      else count) = currentRead
    have hprogress : currentRead = count ∨ 0 < currentRead := by
      rw [← hread]
      split <;> omega
    obtain ⟨bytes, u, hload⟩ := @fat32LoadFatClusterToMemory_isSome b ctx t cluster loc currentRead hready
    obtain ⟨value, v, hnext⟩ := @fat32ReadClusterFromMap_isSome b ctx u cluster hready
    rw [hload]
    simp only [Option.bind_some]
    split
    · rfl
    · next hmore =>
      rw [hnext]
      simp only [Option.bind_some]
      split
      · obtain ⟨⟨behind, w⟩, hrest⟩ := Option.isSome_iff_exists.1
          (@ih v value 0 (count - currentRead) (by omega) hsize (by omega))
        rw [hrest]
        rfl
      · rfl

/-- A read of a drive that can be read returns. -/
theorem fat32Read_isSome {first : ℕ} (hfits : ctx.Fits b) (hready : b.Ready ctx.drive)
    (hcount : count < 2 ^ 31) : (fat32Read b ctx s first loc count).isSome := by
  obtain ⟨d, offset, t, hskip, hoffset⟩ :=
    @skipClusters_isSome b ctx s first loc (loc + 1) hfits hready (Nat.lt_succ_self _)
  rw [fat32Read, hskip]
  exact readClusters_isSome hfits hready hcount hoffset (Nat.lt_succ_self _)

/-! ## Main result -/

/-- A read within a file that returns. -/
theorem fat32Read_cases {first : ℕ} (hfits : ctx.Fits b) (howned : OwnedBy b s ctx.drive)
    (hclusters : ctx.Clusters clusters) (hchain : Chained (ctx.next b) clusters) (hnodup : clusters.Nodup)
    (hfirst : clusters.head? = some first) (hcount : count < 2 ^ 31)
    (hloc : loc < clusters.length * ctx.clusterSize)
    (hfile : loc + count ≤ clusters.length * ctx.clusterSize)
    (h : fat32Read b ctx s first loc count = some (bytes, s')) :
    (DirectRead b ctx (clusters.drop (loc / ctx.clusterSize)) (loc % ctx.clusterSize) count →
      OwnedBy b s' ctx.drive ∧ bytes = ((ctx.fileBytes b clusters).drop loc).take count) ∧
    (¬ DirectRead b ctx (clusters.drop (loc / ctx.clusterSize)) (loc % ctx.clusterSize) count →
      ReadsAnother b ctx clusters bytes (((ctx.fileBytes b clusters).drop loc).take count)) := by
  have hsize : 0 < ctx.clusterSize := Nat.mul_pos hfits.cluster (by decide)
  obtain ⟨rest, rfl⟩ := List.head?_eq_some_iff.1 hfirst
  obtain ⟨⟨d, offset, t⟩, hskip, hread⟩ := Option.bind_eq_some_iff.1 h
  obtain ⟨ht, rfl, behind, hbehind⟩ := skipClusters_spec hfits howned hclusters hchain hloc hskip
  have hdrop : (ctx.fileBytes b (first :: rest)).drop loc =
      (ctx.fileBytes b (d :: behind)).drop (loc % ctx.clusterSize) := by
    rw [Fat32Context.fileBytes, Fat32Context.fileBytes, ← hbehind, ← drop_blockBytes, List.drop_drop,
      Nat.div_add_mod']
  have hmem : ∀ e ∈ d :: behind, e ∈ first :: rest := fun e he => List.mem_of_mem_drop (hbehind ▸ he)
  have hrest : loc % ctx.clusterSize + count ≤ (d :: behind).length * ctx.clusterSize := by
    rw [← hbehind, List.length_drop, Nat.sub_mul]
    have hsplit := Nat.div_add_mod' loc ctx.clusterSize
    omega
  obtain ⟨hright, hwrong⟩ := readClusters_spec hfits ht (fun e he => hclusters e (hmem e he))
    (hbehind ▸ hchain.drop _) (hbehind ▸ hnodup.sublist (List.drop_sublist _ _)) (Nat.mod_lt loc hsize)
    hcount hrest hread
  rw [hbehind, hdrop]
  refine ⟨hright, fun hnot => ?_⟩
  obtain ⟨i, e, he, f, hf, hne, hgot, hshould⟩ := hwrong hnot
  exact ⟨i, e, hmem e he, f, hmem f hf, hne, hgot, hshould⟩

/-- A read within a file returns. It gives the bytes of the file if, once it has come to a piece longer
than one cluster, it ends in it, and otherwise the first byte of one cluster where the file has that of
another. -/
theorem fat32Read_spec {first : ℕ} (hfits : ctx.Fits b) (hready : b.Ready ctx.drive)
    (howned : OwnedBy b s ctx.drive) (hclusters : ctx.Clusters clusters)
    (hchain : Chained (ctx.next b) clusters) (hnodup : clusters.Nodup) (hfirst : clusters.head? = some first)
    (hcount : count < 2 ^ 31) (hloc : loc < clusters.length * ctx.clusterSize)
    (hfile : loc + count ≤ clusters.length * ctx.clusterSize) :
    ∃ bytes s', fat32Read b ctx s first loc count = some (bytes, s') ∧
      if DirectRead b ctx (clusters.drop (loc / ctx.clusterSize)) (loc % ctx.clusterSize) count then
        OwnedBy b s' ctx.drive ∧ bytes = ((ctx.fileBytes b clusters).drop loc).take count
      else ReadsAnother b ctx clusters bytes (((ctx.fileBytes b clusters).drop loc).take count) := by
  obtain ⟨⟨bytes, s'⟩, hread⟩ :=
    Option.isSome_iff_exists.1 (@fat32Read_isSome b ctx s loc count first hfits hready hcount)
  obtain ⟨hright, hwrong⟩ :=
    fat32Read_cases hfits howned hclusters hchain hnodup hfirst hcount hloc hfile hread
  refine ⟨bytes, s', hread, ?_⟩
  split
  · next hdirect => exact hright hdirect
  · next hnot => exact hwrong hnot

/-- A volume with the table in sector 1 and clusters of one sector behind it. A file lies in the clusters
5, 6, 7 and 9. -/
def fragmentedDisk : Bios where
  present := fun _ => true
  bytesPerSect := fun _ => 512
  content := fun _ x => if x = 532 then 6 else if x = 536 then 7 else if x = 540 then 9 else 0
  readable := fun _ _ => true

def fragmentedVolume : Fat32Context := ⟨0x80, 0, 1, 1, 2⟩

/-- The volume is a proper one. -/
theorem fragmentedVolume_fits : fragmentedVolume.Fits fragmentedDisk :=
  ⟨by simp [fragmentedDisk, fragmentedVolume, Bios.blockSize, blockSizeInSectors], by decide, by decide,
    by decide, by decide⟩

/-- The disk can be read. -/
theorem fragmentedDisk_ready : fragmentedDisk.Ready fragmentedVolume.drive :=
  ⟨rfl, fun _ => rfl, by simp [fragmentedDisk, fragmentedVolume, Bios.blockSize, blockSizeInSectors]⟩

/-- A read over all four clusters comes to the piece of the first three, and goes on behind it with
the second cluster. -/
theorem fat32Read_spec_fragmented : ∃ bytes s',
    fat32Read fragmentedDisk fragmentedVolume (.start fun _ => 0) 5 0 2048 = some (bytes, s') ∧
      ReadsAnother fragmentedDisk fragmentedVolume [5, 6, 7, 9] bytes
        (((fragmentedVolume.fileBytes fragmentedDisk [5, 6, 7, 9]).drop 0).take 2048) := by
  have hclusters : fragmentedVolume.Clusters [5, 6, 7, 9] := by
    unfold Fat32Context.Clusters
    decide
  have hchain : Chained (fragmentedVolume.next fragmentedDisk) [5, 6, 7, 9] := by
    unfold Chained
    decide
  have hnot : ¬ DirectRead fragmentedDisk fragmentedVolume
      ([5, 6, 7, 9].drop (0 / fragmentedVolume.clusterSize)) (0 % fragmentedVolume.clusterSize) 2048 := by
    decide
  obtain ⟨bytes, s', hread, hbytes⟩ := @fat32Read_spec fragmentedDisk fragmentedVolume (.start fun _ => 0) 0
    2048 [5, 6, 7, 9] 5 fragmentedVolume_fits fragmentedDisk_ready (.inl rfl) hclusters hchain (by decide) rfl
    (by decide) (by decide) (by decide)
  rw [if_neg hnot] at hbytes
  exact ⟨bytes, s', hread, hbytes⟩

end Orionis.Limine
