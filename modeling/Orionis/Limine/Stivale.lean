import Orionis.Limine.AddressSpace
import Orionis.Limine.Elf
import Orionis.Limine.Fat32

/-!
# From the disk to the kernel

`stivale_load` loads the kernel, puts the modules behind it, builds the address space and hands the memory
map over. When all files lie on a FAT32 volume in clusters whose reads are direct, the kernel finds its
image behind its own addresses and every module where it is told, for as long as its heap runs.
-/

namespace Orionis.Limine

open Orionis.Foundations Orionis.Mem

/-! ## The source -/

variable {σ : Type}

/-- A module that is to be loaded, with `f.size`. -/
structure ModuleFile (σ : Type) where
  handle : FileHandle σ
  size : ℕ

/-- `begin` and `end` of a `stivale_module`. -/
structure StivaleModule where
  beginsAt : ℕ
  endsAt : ℕ
  deriving DecidableEq, Repr

/-- `module_addr`. -/
def moduleAddr (topUsedAddr : ℕ) : ℕ :=
  let top := topUsedAddr % 2 ^ 32
  if top &&& 0xfff ≠ 0 then (alignDown top 0x1000 + 0x1000) % 2 ^ 32 else top

/-- A round of the loop over the modules: those loaded, `top_used_addr` and the state. -/
def loadModule (r : List StivaleModule × ℕ × Loading σ) (f : ModuleFile σ) :
    Except LoadError (List StivaleModule × ℕ × Loading σ) := do
  let (modules, topUsedAddr, s) := r
  let addr := moduleAddr topUsedAddr
  let memmap ← (memmapAllocRange s.boot.memmap addr (f.size % 2 ^ 32) 10).mapError LoadError.memmap
  let s := { s with boot := { s.boot with memmap } }
  let (bytes, s) ← fread f.handle s 0 f.size
  let m : StivaleModule := ⟨addr, add64 addr f.size⟩
  .ok (modules ++ [m], m.endsAt, s.write (storeBytes s.boot.mem addr bytes))

/-- What the kernel is started with. -/
structure Stivale where
  entryPoint : ℕ
  modules : List StivaleModule
  pagemap : Pagemap
  memmap : List MmapEntry
  mem : Memory

/-- `stivale_load` for a 64-bit kernel, from `elf64_load` on. -/
def stivaleLoad (kernel : FileHandle σ) (modules : List (ModuleFile σ)) (slide : ℕ) (want5lv : Bool)
    (stale : ℕ → MmapEntry) (s : Loading σ) : Except LoadError Stivale := do
  let (entryPoint, topUsedAddr, s) ← elf64Load kernel s slide 10
  let (modules, _, s) ← modules.foldlM loadModule ([], topUsedAddr, s)
  let memmap ← (sanitiseEntries s.boot.memmap).mapError LoadError.memmap
  let (pagemap, boot) ← (stivaleBuildPagemap ⟨memmap, s.boot.mem⟩ want5lv stale memmap.length).mapError
    LoadError.memmap
  let memmap ← (sanitiseEntries boot.memmap).mapError LoadError.memmap
  .ok ⟨entryPoint, modules, pagemap, memmap, boot.mem⟩

/-! ## Modules -/

variable {firmware taken : List MmapEntry} {good : σ → Prop} {s t u : Loading σ} {m : Memory}

/-- Where a module goes. -/
def StivaleModule.range (m : StivaleModule) : MmapEntry := ⟨m.beginsAt, m.endsAt - m.beginsAt, 10⟩

/-- A file lies in memory where a module does. -/
structure ModuleAt (file : Memory) (size : ℕ) (r : StivaleModule) (m : Memory) : Prop where
  ends : r.endsAt = r.beginsAt + size
  low : r.endsAt ≤ 2 ^ 32
  bytes : ∀ i < size, m (r.beginsAt + i) = file i

/-- No entry the firmware reports as usable goes across 4 GiB. -/
def NoneAcross (firmware : List MmapEntry) : Prop :=
  ∀ e ∈ firmware, e.Usable → e.base < 2 ^ 32 → e.base + e.length ≤ 2 ^ 32

/-- A module stays where it is as long as its range does not change. -/
theorem ModuleAt.congr {file m m' : Memory} {size : ℕ} {r : StivaleModule} (h : ModuleAt file size r m)
    (hsame : ∀ x ∈ r.range.bytes, m' x = m x) : ModuleAt file size r m' where
  ends := h.ends
  low := h.low
  bytes i hi := by
    have hends := h.ends
    have hin : r.beginsAt + i ∈ r.range.bytes := by
      rw [MmapEntry.mem_bytes, StivaleModule.range]
      dsimp only
      omega
    exact (hsame _ hin).trans (h.bytes i hi)

/-- A file with its bytes. -/
structure Source (σ : Type) extends ModuleFile σ where
  file : Memory

/-- The whole file is read right at once. -/
def Source.Whole (f : Source σ) (good : σ → Prop) : Prop :=
  f.size < 2 ^ 32 ∧ f.handle.Gives good f.file fun loc count => loc = 0 ∧ count = f.size

/-- Modules are loaded below 4 GiB. -/
theorem moduleAddr_lt (top : ℕ) : moduleAddr top < 2 ^ 32 := by
  rw [moduleAddr]
  split <;> omega

/-- A module is loaded to a range of its own, and no other byte changes. -/
theorem loadModule_spec {modules modules' : List StivaleModule} {top top' : ℕ} {f : Source σ}
    (hcross : NoneAcross firmware) (hf : f.Whole good) (hgood : good s.disk)
    (hi : Loader.Inv firmware ⟨s.boot, taken⟩)
    (h : loadModule (modules, top, s) f.toModuleFile = .ok (modules', top', t)) :
    ∃ r, modules' = modules ++ [r] ∧ good t.disk ∧ Loader.Inv firmware ⟨t.boot, r.range :: taken⟩ ∧
      ModuleAt f.file f.size r t.boot.mem ∧ ∀ x, x ∉ r.range.bytes → t.boot.mem x = s.boot.mem x := by
  obtain ⟨hsize, hgives⟩ := hf
  have hlow := moduleAddr_lt top
  obtain ⟨memmap, hmemmap, h⟩ := bind_eq_ok.1 h
  obtain ⟨⟨bytes, u⟩, hbytes, h⟩ := bind_eq_ok.1 h
  obtain ⟨rfl, hu, hboot⟩ := @fread_spec _ _ good f.file ⟨s.disk, ⟨memmap, s.boot.mem⟩⟩ u _ _ bytes _ hgives
    hgood ⟨rfl, rfl⟩ hbytes
  obtain ⟨rfl, hrest⟩ := Prod.mk.inj (Except.ok.inj h)
  obtain ⟨-, rfl⟩ := Prod.mk.inj hrest
  rw [Nat.mod_eq_of_lt hsize] at hmemmap
  have htaken := memmapAllocRange_spec hi.bounded hi.settled (by omega)
    (show 10 ≠ memmapUsable by decide) (mapError_eq_ok.1 hmemmap)
  rw [add64_of_lt (by omega), hboot]
  generalize moduleAddr top = addr at *
  have hrange : StivaleModule.range ⟨addr, addr + f.size⟩ = ⟨addr, f.size, 10⟩ := by
    rw [StivaleModule.range]
    dsimp only
    rw [Nat.add_sub_cancel_left]
  refine ⟨⟨addr, addr + f.size⟩, rfl, hu, ?_, ⟨rfl, ?_, fun i hi => ?_⟩, fun x hx => ?_⟩
  · rw [hrange]
    have hnext := @Loader.Inv.take firmware memmap ⟨s.boot, taken⟩ u.boot.mem hi _ _ htaken (.refl _)
    exact hnext.of_memmap (by rw [Loading.write, hboot])
  · obtain ⟨e, he, huse, hin⟩ := htaken.inside
    obtain ⟨e', he', huse', hin'⟩ := hi.origin e he huse
    obtain ⟨hlo, hhi⟩ := hin.trans hin'
    have hend := hcross e' he' huse' (by simp only at hlo; omega)
    exact hhi.trans hend
  · have hbyte := @storeBytes_loadBytes s.boot.mem f.file f.size addr 0 i hi
    rwa [Nat.zero_add] at hbyte
  · rw [hrange, MmapEntry.mem_bytes] at hx
    exact storeBytes_of_outside _ _ _ _ (by rw [length_loadBytes]; dsimp only at hx; omega)

/-- Modules have been loaded one after the other. -/
structure ModulesLoaded (firmware taken : List MmapEntry) (good : σ → Prop) (files : List (Source σ))
    (modules : List StivaleModule) (s t : Loading σ) : Prop where
  disk : good t.disk
  loader : Loader.Inv firmware ⟨t.boot, (modules.map StivaleModule.range).reverse ++ taken⟩
  bytes : List.Forall₂ (fun f r => ModuleAt f.file f.size r t.boot.mem) files modules
  frame : ∀ x, (∀ r ∈ modules, x ∉ r.range.bytes) → t.boot.mem x = s.boot.mem x

/-- The loop loads every module, each beside those before it. -/
theorem loadModules_spec {files : List (Source σ)} {modules modules' : List StivaleModule} {top top' : ℕ}
    (hcross : NoneAcross firmware) (hfiles : ∀ f ∈ files, f.Whole good) (hgood : good s.disk)
    (hi : Loader.Inv firmware ⟨s.boot, taken⟩)
    (h : (files.map Source.toModuleFile).foldlM loadModule (modules, top, s) = .ok (modules', top', t)) :
    ∃ new, modules' = modules ++ new ∧ ModulesLoaded firmware taken good files new s t := by
  induction files generalizing s taken modules top with
  | nil =>
    obtain ⟨rfl, hrest⟩ := Prod.mk.inj (Except.ok.inj h)
    obtain ⟨-, rfl⟩ := Prod.mk.inj hrest
    exact ⟨[], by rw [List.append_nil], hgood, hi, .nil, fun _ _ => rfl⟩
  | cons f files ih =>
    obtain ⟨hf, hrest⟩ := List.forall_mem_cons.1 hfiles
    rw [List.map_cons, List.foldlM_cons] at h
    obtain ⟨⟨modules₁, top₁, u⟩, hfirst, h⟩ := bind_eq_ok.1 h
    obtain ⟨r, rfl, hu, hnext, hmodule, hframe⟩ := loadModule_spec hcross hf hgood hi hfirst
    obtain ⟨new, rfl, hloaded⟩ := ih hrest hu hnext h
    have htaken : ((r :: new).map StivaleModule.range).reverse ++ taken =
        (new.map StivaleModule.range).reverse ++ r.range :: taken := by simp
    -- later modules do not meet this one
    have hclear : ∀ later ∈ new, Clear later.range r.range := fun later hlater =>
      (List.pairwise_append.1 hloaded.loader.disjoint).2.2 _
        (List.mem_reverse.2 (List.mem_map_of_mem hlater)) _ List.mem_cons_self
    refine ⟨r :: new, by simp, hloaded.disk, htaken ▸ hloaded.loader, .cons ?_ hloaded.bytes, fun x hx => ?_⟩
    · refine hmodule.congr fun x hx => hloaded.frame x fun later hlater => ?_
      exact Set.disjoint_right.1 (clear_iff.1 (hclear later hlater)) hx
    · obtain ⟨hhead, htail⟩ := List.forall_mem_cons.1 hx
      exact (hloaded.frame x htail).trans (hframe x hhead)

/-! ## What the kernel sees -/

/-- Behind the addresses of a segment the processor finds its image. -/
def KernelSees (file : Memory) (slide : ℕ) (translate : ℕ → Option ℕ) (m : Memory) : Prop :=
  ∀ phdr ∈ elfSegments file, ∀ v, phdr.vaddr ≤ v → v < phdr.vaddr + phdr.memsz →
    (translate (add64 v slide)).map m = some (elfImage file slide phdr v)

/-- Segments linked for the higher half lie in the window. -/
def InWindow (file : Memory) (slide : ℕ) : Prop :=
  ∀ phdr ∈ elfSegments file, 2 ^ 63 ≤ phdr.vaddr → phdr.loadVaddr slide + phdr.memsz ≤ 2 ^ 31

/-- The test of the highest bit asks whether the address is in the higher half. -/
theorem and_bit63 {v : ℕ} (h : v < 2 ^ 64) : v &&& 1 <<< 63 ≠ 0 ↔ 2 ^ 63 ≤ v := by
  rw [Nat.one_shiftLeft, Nat.and_two_pow, Nat.testBit_eq_decide_div_mod_eq]
  by_cases hv : 2 ^ 63 ≤ v
  · rw [decide_eq_true (by omega)]
    exact iff_of_true (by decide) hv
  · rw [decide_eq_false (by omega)]
    exact iff_of_false (by decide) hv

/-- Where an address of a segment leads. -/
theorem DirectMap.segment {level5pg : Bool} {translate : ℕ → Option ℕ} {phdr : Elf64Phdr} {slide v : ℕ}
    (hdirect : DirectMap level5pg translate) (hload : phdr.Loadable slide)
    (hwindow : 2 ^ 63 ≤ phdr.vaddr → phdr.loadVaddr slide + phdr.memsz ≤ 2 ^ 31) (hlo : phdr.vaddr ≤ v)
    (hhi : v < phdr.vaddr + phdr.memsz) :
    translate (add64 v slide) = some (phdr.loadVaddr slide + (v - phdr.vaddr)) := by
  obtain ⟨-, hlow, hvirt⟩ := hload
  have hbit := @and_bit63 phdr.vaddr (by omega)
  have hvaddr : phdr.loadVaddr slide = add64 (if 2 ^ 63 ≤ phdr.vaddr then
      sub64 phdr.vaddr fixedHigherHalfOffset64 else phdr.vaddr) slide := by
    rw [Elf64Phdr.loadVaddr]
    exact congrArg (add64 · slide) (if_congr hbit rfl rfl)
  by_cases hhigh : 2 ^ 63 ≤ phdr.vaddr
  · have hsum : add64 v slide = kernelWindow + (phdr.loadVaddr slide + (v - phdr.vaddr)) := by
      have hend := hwindow hhigh
      rw [if_pos hhigh] at hvaddr
      simp only [add64, sub64, fixedHigherHalfOffset64, kernelWindow] at *
      omega
    have hend := hwindow hhigh
    rw [hsum]
    exact hdirect.window _ (by omega)
  · have hsum : add64 v slide = phdr.loadVaddr slide + (v - phdr.vaddr) := by
      rw [if_neg hhigh] at hvaddr
      simp only [add64] at *
      omega
    rw [hsum]
    exact hdirect.identity _ (by omega)

/-! ## Any file system -/

/-- The kernel finds its image behind its addresses, and its modules where it is told. -/
structure KernelRuns (file : Memory) (slide : ℕ) (files : List (Source σ)) (modules : List StivaleModule)
    (translate : ℕ → Option ℕ) (m : Memory) : Prop where
  image : KernelSees file slide translate m
  modules : List.Forall₂ (fun f r => r.endsAt = r.beginsAt + f.size ∧
    ∀ i < f.size, (translate (r.beginsAt + i)).map m = some (f.file i)) files modules

/-- From any state of the boot the kernel that is started finds itself and its modules, and does so
in every run of its heap. -/
theorem Loader.Inv.stivaleLoad {kernel : FileHandle σ} {file : Memory} {files : List (Source σ)}
    {slide : ℕ} {want5lv : Bool} {stale : ℕ → MmapEntry} {r : Stivale}
    (hi : Loader.Inv firmware ⟨s.boot, taken⟩) (hfirmware : Below (physLimit want5lv) firmware)
    (hcross : NoneAcross firmware) (hkernel : kernel.Gives good file (ElfRead file))
    (hfile : ElfLoadable file slide) (hwindow : InWindow file slide) (hfiles : ∀ f ∈ files, f.Whole good)
    (hgood : good s.disk) (hstale : ∀ i, (stale i).base + (stale i).length ≤ physLimit want5lv)
    (h : stivaleLoad kernel (files.map Source.toModuleFile) slide want5lv stale s = .ok r) :
    ∃ map : StivaleMap, map.entries = r.memmap ∧ ∀ b requests heap, b.mem = r.mem →
      Run HeapStep (Heap.start map b) requests heap →
        KernelRuns file slide files r.modules (r.pagemap.translate heap.buddy.mem) heap.buddy.mem := by
  obtain ⟨⟨entry, top, t⟩, hload, h⟩ := bind_eq_ok.1 h
  obtain ⟨⟨modules, top', u⟩, hmodules, h⟩ := bind_eq_ok.1 h
  obtain ⟨memmap, hget, h⟩ := bind_eq_ok.1 h
  obtain ⟨⟨pagemap, boot⟩, hbuild, h⟩ := bind_eq_ok.1 h
  obtain ⟨memmap', hget', h⟩ := bind_eq_ok.1 h
  obtain rfl := Except.ok.inj h
  obtain ⟨hloaded, -, -⟩ := hi.elf64Load hkernel hgood hfile (by decide) hload
  obtain ⟨new, hnew, hplaced⟩ := loadModules_spec hcross hfiles hloaded.disk hloaded.loader hmodules
  rw [List.nil_append] at hnew
  subst hnew
  obtain ⟨hsane, -⟩ := @Loader.Inv.sanitise firmware memmap ⟨u.boot, _⟩ u.boot.mem hplaced.loader
    (mapError_eq_ok.1 hget)
  obtain ⟨map, htable, hstarted⟩ := hsane.started hfirmware hstale (mapError_eq_ok.1 hbuild)
    (mapError_eq_ok.1 hget')
  refine ⟨map, htable, fun b requests heap hb hheap => ?_⟩
  have huntouched := hstarted.untouched hb hheap
  have hdirect := hstarted.direct _ huntouched
  -- what was loaded is as it was
  have hkept : ∀ r ∈ (modules.map StivaleModule.range).reverse ++
      (((elfSegments file).map (·.range slide 10)).reverse ++ taken), r.type = 10 → ∀ x ∈ r.bytes,
        heap.buddy.mem x = u.boot.mem x := by
    intro r hr htype x hx
    have htype' : r.type ≠ memmapBootloaderReclaimable := by
      rw [htype]
      decide
    obtain ⟨hsame, husable⟩ := hstarted.kept r hr htype' x hx
    rw [huntouched x husable, hsame]
  refine ⟨fun phdr hphdr v hlo hhi => ?_, ?_⟩
  · have hmem : phdr.range slide 10 ∈ ((elfSegments file).map (·.range slide 10)).reverse ++ taken :=
      List.mem_append_left _ (List.mem_reverse.2 (List.mem_map_of_mem hphdr))
    have himage : ImageAt file slide phdr heap.buddy.mem := by
      refine @ImageAt.congr _ _ _ 10 _ _ (hloaded.image phdr hphdr) fun x hx => ?_
      rw [hkept _ (List.mem_append_right _ hmem) rfl x hx]
      -- no module meets the segment
      refine hplaced.frame x fun m hm => ?_
      have hclear := (List.pairwise_append.1 hplaced.loader.disjoint).2.2 m.range
        (List.mem_reverse.2 (List.mem_map_of_mem hm)) _ hmem
      exact Set.disjoint_right.1 (clear_iff.1 hclear) hx
    rw [hdirect.segment (hfile.segments phdr hphdr) (hwindow phdr hphdr) hlo hhi]
    exact congrArg some (himage v hlo hhi)
  · change List.Forall₂ _ files modules
    refine List.forall₂_iff_get.2 ⟨hplaced.bytes.length_eq, fun i hi hi' => ?_⟩
    have hmodule := (List.forall₂_iff_get.1 hplaced.bytes).2 i hi hi'
    generalize files.get ⟨i, hi⟩ = f at hmodule ⊢
    have hmem : (modules.get ⟨i, hi'⟩).range ∈ (modules.map StivaleModule.range).reverse :=
      List.mem_reverse.2 (List.mem_map_of_mem (List.get_mem _ _))
    have hmodule' := hmodule.congr (hkept _ (List.mem_append_left _ hmem) rfl)
    refine ⟨hmodule'.ends, fun j hj => ?_⟩
    have hends := hmodule'.ends
    have hlow := hmodule'.low
    rw [hdirect.identity _ (by omega)]
    exact congrArg some (hmodule'.bytes j hj)

/-! ## Files on a FAT32 volume -/

/-- A file of a volume. -/
structure Fat32File where
  ctx : Fat32Context
  clusters : List ℕ
  size : ℕ

/-- The handle `fopen` gives for it. -/
def Fat32File.handle (b : Bios) (f : Fat32File) : FileHandle DiskCache where
  read s loc count := fat32Read b f.ctx s (f.clusters.headD 0) loc count

/-- The bytes of its clusters. -/
def Fat32File.bytes (b : Bios) (f : Fat32File) : Memory :=
  fun x => (f.ctx.fileBytes b f.clusters).getD x 0

/-- How far its clusters reach. -/
def Fat32File.room (f : Fat32File) : ℕ := f.clusters.length * f.ctx.clusterSize

/-- The file is a chain of clusters of a volume of the drive. -/
structure Fat32File.On (b : Bios) (drive : ℕ) (f : Fat32File) : Prop where
  drive : f.ctx.drive = drive
  fits : f.ctx.Fits b
  clusters : f.ctx.Clusters f.clusters
  chain : Chained (f.ctx.next b) f.clusters
  nodup : f.clusters.Nodup
  nonempty : f.clusters ≠ []

/-- A read within the file that is direct. -/
structure Fat32File.Reads (b : Bios) (f : Fat32File) (loc count : ℕ) : Prop where
  small : count < 2 ^ 31
  begins : loc < f.room
  ends : loc + count ≤ f.room
  direct : DirectRead b f.ctx (f.clusters.drop (loc / f.ctx.clusterSize)) (loc % f.ctx.clusterSize) count

variable {b : Bios} {drive : ℕ} {f : Fat32File}

/-- Direct reads of a file give its bytes and leave no other drive in the cache. -/
theorem Fat32File.gives {reads : ℕ → ℕ → Prop} (hf : f.On b drive)
    (hreads : ∀ loc count, reads loc count → f.Reads b loc count) :
    (f.handle b).Gives (fun s => OwnedBy b s drive) (f.bytes b) reads := by
  intro d d' loc count bytes hgood hread h
  obtain ⟨rfl, hfits, hclusters, hchain, hnodup, hne⟩ := hf
  obtain ⟨hsmall, hbegins, hends, hdirect⟩ := hreads loc count hread
  have hfirst : f.clusters.head? = some (f.clusters.headD 0) := by
    cases hlist : f.clusters with
    | nil => exact absurd hlist hne
    | cons c rest => rfl
  obtain ⟨howned, hbytes⟩ :=
    (fat32Read_cases hfits hgood hclusters hchain hnodup hfirst hsmall hbegins hends h).1 hdirect
  refine ⟨hbytes.trans ?_, howned⟩
  exact (loadBytes_getD (by rw [Fat32Context.fileBytes, length_blockBytes]; exact hends)).symm

/-- A read shorter than a cluster is direct. -/
theorem Fat32File.reads_of_short {loc count : ℕ} (hf : f.On b drive) (hpos : 0 < count)
    (hshort : count < f.ctx.clusterSize) (hends : loc + count ≤ f.room) : f.Reads b loc count := by
  have hsize : 0 < f.ctx.clusterSize := hpos.trans hshort
  have hsmall : f.ctx.clusterSize < 2 ^ 17 := by
    have hspc := hf.fits.clusterSmall
    rw [Fat32Context.clusterSize]
    omega
  refine ⟨by omega, by omega, hends, ?_⟩
  have hpiece : ∀ c n, n < f.ctx.clusterSize → f.ctx.piece b c n = f.ctx.clusterSize := by
    intro c n hn
    rw [Fat32Context.piece, Nat.div_eq_of_lt hn, consecutive, Nat.zero_add, Nat.one_mul]
  have hlen : loc % f.ctx.clusterSize + count ≤
      (f.clusters.drop (loc / f.ctx.clusterSize)).length * f.ctx.clusterSize := by
    rw [List.length_drop, Nat.sub_mul]
    have hsplit := Nat.div_add_mod' loc f.ctx.clusterSize
    rw [Fat32File.room] at hends
    omega
  have hloc := Nat.mod_lt loc hsize
  generalize f.clusters.drop (loc / f.ctx.clusterSize) = clusters at hlen ⊢
  generalize loc % f.ctx.clusterSize = offset at hlen hloc ⊢
  cases clusters with
  | nil =>
    rw [List.length_nil, Nat.zero_mul] at hlen
    omega
  | cons c rest =>
    rw [DirectRead, hpiece c _ hshort]
    cases rest with
    | nil =>
      rw [List.length_singleton, Nat.one_mul] at hlen
      exact .inl hlen
    | cons d rest =>
      refine .inr ⟨rfl, .inl ?_⟩
      rw [hpiece d _ (by omega)]
      omega

/-- A kernel that can be loaded from a volume: its headers lie in the file, and the reads of its segments
are direct. -/
structure Fat32File.Kernel (b : Bios) (drive slide : ℕ) (f : Fat32File) : Prop where
  on : f.On b drive
  loadable : ElfLoadable (f.bytes b) slide
  window : InWindow (f.bytes b) slide
  inside : ∀ loc count, ElfRead (f.bytes b) loc count → loc + count ≤ f.room
  segments : ∀ phdr ∈ elfSegments (f.bytes b), f.Reads b phdr.offset phdr.filesz

/-- All reads of `elf64_load` are direct ones. -/
theorem Fat32File.Kernel.gives {slide : ℕ} (hf : f.Kernel b drive slide) :
    (f.handle b).Gives (fun s => OwnedBy b s drive) (f.bytes b) (ElfRead (f.bytes b)) := by
  have hsize : 512 ≤ f.ctx.clusterSize := Nat.le_mul_of_pos_left _ hf.on.fits.cluster
  refine Fat32File.gives hf.on fun loc count hread => ?_
  have hinside := hf.inside loc count hread
  cases hread with
  | segment hphdr => exact hf.segments _ hphdr
  | header => exact Fat32File.reads_of_short hf.on (by decide) (by omega) hinside
  | phdr _ => exact Fat32File.reads_of_short hf.on (by decide) (by omega) hinside
  | shdr _ _ => exact Fat32File.reads_of_short hf.on (by decide) (by omega) hinside
  | rela _ _ _ _ => exact Fat32File.reads_of_short hf.on (by decide) (by omega) hinside

/-- A file as a module. -/
def Fat32File.source (b : Bios) (f : Fat32File) : Source DiskCache where
  handle := f.handle b
  size := f.size
  file := f.bytes b

/-- From a volume the kernel and its modules come to where the kernel looks for them. -/
theorem kernel_of_disk {firmware memmap taken : List MmapEntry} {mem : Memory} {calls : List LoaderCall}
    {s : Loading DiskCache} {kernel : Fat32File} {modules : List Fat32File} {slide : ℕ} {want5lv : Bool}
    {stale : ℕ → MmapEntry} {r : Stivale} (hfirmware : Below (physLimit want5lv) firmware)
    (hcross : NoneAcross firmware) (hinit : initMemmap firmware = .ok memmap)
    (hrun : Run LoaderStep ⟨⟨memmap, mem⟩, []⟩ calls ⟨s.boot, taken⟩) (howned : OwnedBy b s.disk drive)
    (hkernel : kernel.Kernel b drive slide) (hmodules : ∀ f ∈ modules, f.On b drive ∧ f.Reads b 0 f.size)
    (hstale : ∀ i, (stale i).base + (stale i).length ≤ physLimit want5lv)
    (h : stivaleLoad (kernel.handle b) ((modules.map (·.source b)).map Source.toModuleFile) slide want5lv
      stale s = .ok r) :
    ∃ map : StivaleMap, map.entries = r.memmap ∧ ∀ buddy requests heap, buddy.mem = r.mem →
      Run HeapStep (Heap.start map buddy) requests heap →
        KernelRuns (kernel.bytes b) slide (modules.map (·.source b)) r.modules
          (r.pagemap.translate heap.buddy.mem) heap.buddy.mem := by
  have hlimit : physLimit want5lv < 2 ^ 63 := by
    rw [physLimit]
    split <;> decide
  have hi := Loader.inv_of_run (hfirmware.bounded hlimit) hinit hrun
  have hfiles : ∀ f ∈ modules.map (·.source b), f.Whole fun s => OwnedBy b s drive := by
    rintro f hf
    obtain ⟨g, hg, rfl⟩ := List.mem_map.1 hf
    obtain ⟨hon, hreads⟩ := hmodules g hg
    refine ⟨hreads.small.trans (by decide), Fat32File.gives hon ?_⟩
    rintro loc count ⟨rfl, rfl⟩
    exact hreads
  exact hi.stivaleLoad hfirmware hcross hkernel.gives hkernel.loadable hkernel.window hfiles howned hstale h

/-! ## An example -/

/-- A kernel of one segment for the window, with a relocation of its second word. -/
def windowKernel : Memory := fun x =>
  [(0, 0x7f), (1, 0x45), (2, 0x4c), (3, 0x46), (4, 0x02), (5, 0x01), (16, 3), (18, 0x3e), (32, 64),
    (40, 120), (56, 1), (60, 1), (64, 1), (83, 0x88), (84, 0xff), (85, 0xff), (86, 0xff), (87, 0xff),
    (97, 0x01), (105, 0x10), (124, 4), (144, 184), (152, 24), (176, 24), (184, 0x08), (187, 0x88),
    (188, 0xff), (189, 0xff), (190, 0xff), (191, 0xff), (192, 8), (200, 5)].lookup x |>.getD 0

/-- A disk with the kernel in the first cluster of a volume and a module in the second one. -/
def bootDisk : Bios where
  present _ := true
  bytesPerSect _ := 512
  content _ x := if 1024 ≤ x ∧ x < 5120 then windowKernel (x - 1024) else if 5120 ≤ x then 0x2a else 0
  readable _ _ := true

def bootVolume : Fat32Context := ⟨0x80, 0, 8, 1, 2⟩

def bootKernel : Fat32File := ⟨bootVolume, [2], 256⟩

def bootModule : Fat32File := ⟨bootVolume, [3], 4096⟩

/-- 127 MiB, and two pages above them for the kernel and the module. -/
def bootMemmap : List MmapEntry := [⟨0x100000, 0x7f00000, 1⟩, ⟨0x8000000, 0x2000, 1⟩]

def bootStart : Loading DiskCache := ⟨.start fun _ => 0, ⟨bootMemmap, fun _ => 0⟩⟩

/-- The volume is a proper one. -/
theorem bootVolume_fits : bootVolume.Fits bootDisk :=
  ⟨by simp [bootDisk, bootVolume, Bios.blockSize, blockSizeInSectors], by decide, by decide, by decide,
    by decide⟩

/-- The kernel is a file on it. -/
theorem bootKernel_on : bootKernel.On bootDisk 0x80 where
  drive := rfl
  fits := bootVolume_fits
  clusters := List.forall_mem_singleton.2 (by decide)
  chain := List.isChain_singleton _
  nodup := List.nodup_singleton _
  nonempty := List.cons_ne_nil _ _

/-- The module is a file on it. -/
theorem bootModule_on : bootModule.On bootDisk 0x80 where
  drive := rfl
  fits := bootVolume_fits
  clusters := List.forall_mem_singleton.2 (by decide)
  chain := List.isChain_singleton _
  nodup := List.nodup_singleton _
  nonempty := List.cons_ne_nil _ _

/-- The module is read directly. -/
theorem bootModule_reads : bootModule.Reads bootDisk 0 4096 := ⟨by decide, by decide, by decide, by decide⟩

/-- The fields of its header that lead to the others. -/
theorem bootKernel_hdr : (elfHdr (bootKernel.bytes bootDisk)).phoff = 64 ∧
    (elfHdr (bootKernel.bytes bootDisk)).phNum = 1 ∧ (elfHdr (bootKernel.bytes bootDisk)).shoff = 120 ∧
      (elfHdr (bootKernel.bytes bootDisk)).shNum = 1 := by decide +kernel

/-- Its section of relocations. -/
theorem bootKernel_shdr : elfShdr (bootKernel.bytes bootDisk) 0 = ⟨4, 184, 24, 24⟩ := by decide +kernel

/-- Its segment, for the window. -/
theorem bootKernel_segments : elfSegments (bootKernel.bytes bootDisk) =
    [⟨1, 0, 0xffffffff88000000, 0x100, 0x1000⟩] := by decide +kernel

/-- Its relocation. -/
theorem bootKernel_relas : elfRelas (bootKernel.bytes bootDisk) = [⟨0xffffffff88000008, 8, 5⟩] := by
  decide +kernel

/-- Its headers lie inside the file. -/
theorem bootKernel_inside {loc count : ℕ} (h : ElfRead (bootKernel.bytes bootDisk) loc count) :
    loc + count ≤ bootKernel.room := by
  obtain ⟨hphoff, hphNum, hshoff, hshNum⟩ := bootKernel_hdr
  have hroom : bootKernel.room = 4096 := by decide
  rw [hroom]
  cases h with
  | header => decide
  | phdr hi =>
    rw [hphNum] at hi
    obtain rfl := Nat.lt_one_iff.1 hi
    rw [hphoff]
    decide
  | segment hphdr =>
    rw [bootKernel_segments] at hphdr
    obtain rfl := List.mem_singleton.1 hphdr
    decide
  | shdr _ hi =>
    rw [hshNum] at hi
    obtain rfl := Nat.lt_one_iff.1 hi
    rw [hshoff]
    decide
  | rela _ hi _ hoffset =>
    rw [hshNum] at hi
    obtain rfl := Nat.lt_one_iff.1 hi
    rw [bootKernel_shdr] at hoffset ⊢
    obtain rfl : _ = 0 := List.mem_singleton.1 hoffset
    decide

/-- It is a kernel that can be loaded. -/
theorem bootKernel_kernel : bootKernel.Kernel bootDisk 0x80 0 where
  on := bootKernel_on
  loadable := by
    refine ⟨?_, ?_⟩
    · rw [bootKernel_segments, List.forall_mem_singleton]
      exact ⟨by decide, by decide, by decide⟩
    · rw [bootKernel_relas, List.forall_mem_singleton]
      decide
  window := by
    rw [InWindow, bootKernel_segments, List.forall_mem_singleton]
    decide
  inside _ _ := bootKernel_inside
  segments := by
    rw [bootKernel_segments, List.forall_mem_singleton]
    exact ⟨by decide, by decide, by decide, by decide⟩

/-- The kernel and the module are loaded one behind the other. -/
theorem boot_loaded : ∃ x : ℕ × ℕ × Loading DiskCache, ∃ y : List StivaleModule × ℕ × Loading DiskCache,
    elf64Load (bootKernel.handle bootDisk) bootStart 0 10 = .ok x ∧
      (([bootModule].map (·.source bootDisk)).map Source.toModuleFile).foldlM loadModule ([], x.2.1, x.2.2) =
        .ok y ∧
      y.2.2.boot.memmap = [⟨0x100000, 0x7f00000, 1⟩, ⟨0x8000000, 0x1000, 10⟩, ⟨0x8001000, 0x1000, 10⟩] := by
  have hloads : (((elf64Load (bootKernel.handle bootDisk) bootStart 0 10).bind fun x =>
      (([bootModule].map (·.source bootDisk)).map Source.toModuleFile).foldlM loadModule
        ([], x.2.1, x.2.2)).toOption.map fun y => y.2.2.boot.memmap) =
          some [⟨0x100000, 0x7f00000, 1⟩, ⟨0x8000000, 0x1000, 10⟩, ⟨0x8001000, 0x1000, 10⟩] := by
    decide +kernel
  obtain ⟨y, hy, hmemmap⟩ := Option.map_eq_some_iff.1 hloads
  obtain ⟨y', hy'⟩ := ok_of_isSome (Option.isSome_iff_exists.2 ⟨y, hy⟩)
  obtain ⟨x, hx, hrest⟩ := bind_eq_ok.1 hy'
  rw [hy'] at hy
  obtain rfl := Option.some.inj hy
  exact ⟨x, y', hx, hrest, hmemmap⟩

/-- `stivale_load` returns when its steps do. -/
theorem stivaleLoad_eq {kernel : FileHandle σ} {files : List (ModuleFile σ)} {slide entry top top' : ℕ}
    {want5lv : Bool} {stale : ℕ → MmapEntry} {modules : List StivaleModule} {memmap table : List MmapEntry}
    {pagemap : Pagemap} {boot : Boot} (hload : elf64Load kernel s slide 10 = .ok (entry, top, t))
    (hmodules : files.foldlM loadModule ([], top, t) = .ok (modules, top', u))
    (hsane : sanitiseEntries u.boot.memmap = .ok memmap)
    (hbuild : stivaleBuildPagemap ⟨memmap, u.boot.mem⟩ want5lv stale memmap.length = .ok (pagemap, boot))
    (hget : sanitiseEntries boot.memmap = .ok table) :
    stivaleLoad kernel files slide want5lv stale s = .ok ⟨entry, modules, pagemap, table, boot.mem⟩ :=
  bind_eq_ok.2 ⟨_, hload, bind_eq_ok.2 ⟨_, hmodules, bind_eq_ok.2 ⟨_, mapError_eq_ok.2 hsane,
    bind_eq_ok.2 ⟨_, mapError_eq_ok.2 hbuild, bind_eq_ok.2 ⟨_, mapError_eq_ok.2 hget, rfl⟩⟩⟩⟩⟩

def bootAbove : List MmapEntry := [⟨0x8000000, 0x1000, 10⟩, ⟨0x8001000, 0x1000, 10⟩]

/-- Nothing is taken from the entries above. -/
theorem bootAbove_above : Above bootAbove :=
  ⟨by unfold bootAbove; decide, by unfold bootAbove; decide, by unfold bootAbove; decide, by decide⟩

/-- The kernel and the module of the example disk are loaded and found. -/
theorem kernel_of_disk_boot : ∃ r, stivaleLoad (bootKernel.handle bootDisk)
    (([bootModule].map (·.source bootDisk)).map Source.toModuleFile) 0 false (fun _ => ⟨0, 0, 0⟩) bootStart =
      .ok r ∧
    ∃ map : StivaleMap, map.entries = r.memmap ∧ ∀ buddy requests heap, buddy.mem = r.mem →
      Run HeapStep (Heap.start map buddy) requests heap →
        KernelRuns (bootKernel.bytes bootDisk) 0 ([bootModule].map (·.source bootDisk)) r.modules
          (r.pagemap.translate heap.buddy.mem) heap.buddy.mem := by
  obtain ⟨⟨entry, top, t⟩, ⟨modules, top', u⟩, hload, hmodules, hmemmap⟩ := boot_loaded
  have hsane : sanitiseEntries u.boot.memmap = .ok (⟨0x100000, 0x7f00000, 1⟩ :: bootAbove) := by
    rw [hmemmap]
    decide
  have hpage : extMemAllocAligned ⟨⟨0x100000, 0x7f00000, 1⟩ :: bootAbove, u.boot.mem⟩ ptSize ptSize =
      .ok (0x7fff000, ⟨machine 0x7eff000 0x1000 bootAbove, memsetZero u.boot.mem 0x7fff000 ptSize⟩) := rfl
  have hroomy : Roomy bootAbove 19999
      ⟨machine 0x7eff000 0x1000 bootAbove, memsetZero u.boot.mem 0x7fff000 ptSize⟩ :=
    ⟨_, _, rfl, by decide, by decide, by decide, by decide⟩
  obtain ⟨pagemap, boot, table, hbuild, hget⟩ := hroomy.build bootAbove_above (show 3 ≤ 20 by decide) hpage
  have hboot : stivaleLoad (bootKernel.handle bootDisk)
      (([bootModule].map (·.source bootDisk)).map Source.toModuleFile) 0 false (fun _ => ⟨0, 0, 0⟩) bootStart =
        .ok ⟨entry, modules, pagemap, table, boot.mem⟩ := stivaleLoad_eq hload hmodules hsane hbuild hget
  have hfirmware : Below (physLimit false) bootMemmap := by
    unfold Below
    decide
  have hcross : NoneAcross bootMemmap := by
    unfold NoneAcross
    decide
  have hinit : initMemmap bootMemmap = .ok bootMemmap := by decide
  have howned : OwnedBy bootDisk bootStart.disk 0x80 := .inl rfl
  have hmodule : ∀ f ∈ [bootModule], f.On bootDisk 0x80 ∧ f.Reads bootDisk 0 f.size :=
    List.forall_mem_singleton.2 ⟨bootModule_on, bootModule_reads⟩
  exact ⟨_, hboot, kernel_of_disk (s := bootStart) hfirmware hcross hinit
    (Run.nil (⟨⟨bootMemmap, fun _ => 0⟩, []⟩ : Loader)) howned bootKernel_kernel hmodule
    (fun _ => Nat.zero_le _) hboot⟩

end Orionis.Limine
