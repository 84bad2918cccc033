import Orionis.Limine.Handover

/-!
# Loading the kernel

`elf64_load` takes the range of every segment out of the memory map, reads the bytes the file has for it,
clears the rest and then goes through all relocations of the file for those inside it. A later segment
cannot overwrite an earlier one, since its range has to be usable. What comes to lie in memory is the
image the file describes.
-/

namespace Orionis.Limine

open Orionis.Foundations Orionis.Mem

/-! ## Files -/

/-- `file_handle`: what `read` puts into the buffer, with what the driver keeps from one read to the
next. -/
structure FileHandle (σ : Type) where
  read : σ → (loc count : ℕ) → Option (List UInt8 × σ)

/-- Why `elf64_load` does not load: it returns -1, or it runs into a panic. -/
inductive LoadError
  /-- "Not a valid ELF file." -/
  | notElf
  /-- "Not a Little-endian ELF file." -/
  | notLittleEndian
  /-- "Not an x86_64 ELF file." -/
  | notX86_64
  /-- "elf: Unknown sh_entsize for RELA section!" -/
  | relaEntsize
  /-- "elf: Unknown RELA type: %X" -/
  | relaType (info : ℕ)
  | memmap (s : Stop)
  | disk
  deriving DecidableEq, Repr

/-- The bootloader while it loads. -/
structure Loading (σ : Type) where
  disk : σ
  boot : Boot

/-- The memory is written. -/
def Loading.write {σ : Type} (s : Loading σ) (mem : Memory) : Loading σ :=
  { s with boot := { s.boot with mem } }

variable {σ : Type}

/-- `fread`, to a buffer of its own. -/
def fread (fd : FileHandle σ) (s : Loading σ) (loc count : ℕ) :
    Except LoadError (List UInt8 × Loading σ) :=
  match fd.read s.disk loc count with
  | none => .error .disk
  | some (bytes, disk) => .ok (bytes, { s with disk })

/-! ## The source -/

/-- A field of a structure read from the file. -/
def field (bytes : List UInt8) (offset size : ℕ) : ℕ := loadLE (fun i => bytes.getD i 0) size offset

/-- `elf64_hdr`. -/
structure Elf64Hdr where
  ident : List UInt8
  type : ℕ
  machine : ℕ
  entry : ℕ
  phoff : ℕ
  shoff : ℕ
  phNum : ℕ
  shNum : ℕ
  deriving DecidableEq, Repr

def Elf64Hdr.ofBytes (bytes : List UInt8) : Elf64Hdr :=
  ⟨bytes.take 16, field bytes 16 2, field bytes 18 2, field bytes 24 8, field bytes 32 8, field bytes 40 8,
    field bytes 56 2, field bytes 60 2⟩

/-- `elf64_phdr`. -/
structure Elf64Phdr where
  type : ℕ
  offset : ℕ
  vaddr : ℕ
  filesz : ℕ
  memsz : ℕ
  deriving DecidableEq, Repr

def Elf64Phdr.ofBytes (bytes : List UInt8) : Elf64Phdr :=
  ⟨field bytes 0 4, field bytes 8 8, field bytes 16 8, field bytes 32 8, field bytes 40 8⟩

/-- `elf64_shdr`. -/
structure Elf64Shdr where
  type : ℕ
  offset : ℕ
  size : ℕ
  entsize : ℕ
  deriving DecidableEq, Repr

def Elf64Shdr.ofBytes (bytes : List UInt8) : Elf64Shdr :=
  ⟨field bytes 4 4, field bytes 24 8, field bytes 32 8, field bytes 56 8⟩

/-- `elf64_rela`. -/
structure Elf64Rela where
  addr : ℕ
  info : ℕ
  addend : ℕ
  deriving DecidableEq, Repr

def Elf64Rela.ofBytes (bytes : List UInt8) : Elf64Rela :=
  ⟨field bytes 0 8, field bytes 8 4, field bytes 16 8⟩

/-- Where the entries of a section begin. -/
def Elf64Shdr.offsets (shdr : Elf64Shdr) : List ℕ := (List.range ((shdr.size + 23) / 24)).map (· * 24)

/-- A round of the inner loop of `elf64_apply_relocations`. -/
def applyRela (fd : FileHandle σ) (buffer vaddr size slide : ℕ) (shdr : Elf64Shdr) (s : Loading σ)
    (offset : ℕ) : Except LoadError (Loading σ) := do
  let (bytes, s) ← fread fd s (add64 shdr.offset offset) 24
  let relocation := Elf64Rela.ofBytes bytes
  if relocation.info ≠ 0x00000008 then .error (.relaType relocation.info)
  else if relocation.addr < vaddr then .ok s
  else if add64 vaddr size < add64 relocation.addr 8 then .ok s
  else
    let ptr := (buffer + 2 ^ 64 - vaddr + relocation.addr) % 2 ^ 32
    .ok (s.write (storeLE s.boot.mem 8 ptr (add64 slide relocation.addend)))

/-- A round of its outer loop. -/
def applySection (fd : FileHandle σ) (hdr : Elf64Hdr) (buffer vaddr size slide : ℕ) (s : Loading σ)
    (i : ℕ) : Except LoadError (Loading σ) := do
  let (bytes, s) ← fread fd s (add64 hdr.shoff (i * 64)) 64
  let shdr := Elf64Shdr.ofBytes bytes
  if shdr.type ≠ 0x00000004 then .ok s
  else if shdr.entsize ≠ 24 then .error .relaEntsize
  else shdr.offsets.foldlM (applyRela fd buffer vaddr size slide shdr) s

/-- `elf64_apply_relocations`. -/
def elf64ApplyRelocations (fd : FileHandle σ) (hdr : Elf64Hdr) (buffer vaddr size slide : ℕ)
    (s : Loading σ) : Except LoadError (Loading σ) :=
  if hdr.type ≠ 0x0003 then .ok s
  else (List.range hdr.shNum).foldlM (applySection fd hdr buffer vaddr size slide) s

/-- `FIXED_HIGHER_HALF_OFFSET_64`. -/
def fixedHigherHalfOffset64 : ℕ := 0xffffffff80000000

/-- `load_vaddr`. -/
def Elf64Phdr.loadVaddr (slide : ℕ) (phdr : Elf64Phdr) : ℕ :=
  add64 (if phdr.vaddr &&& 1 <<< 63 ≠ 0 then sub64 phdr.vaddr fixedHigherHalfOffset64 else phdr.vaddr)
    slide

/-- The part of a round of `elf64_load` behind `this_top`. Pointers and `size_t` have 32 bits. -/
def loadSegment (fd : FileHandle σ) (hdr : Elf64Hdr) (slide allocType : ℕ) (phdr : Elf64Phdr)
    (s : Loading σ) : Except LoadError (Loading σ) := do
  let loadVaddr := phdr.loadVaddr slide
  let memmap ← (memmapAllocRange s.boot.memmap (loadVaddr % 2 ^ 32) (phdr.memsz % 2 ^ 32)
    allocType).mapError LoadError.memmap
  let s := { s with boot := { s.boot with memmap } }
  let (bytes, s) ← fread fd s phdr.offset phdr.filesz
  let mem := storeBytes s.boot.mem (loadVaddr % 2 ^ 32) bytes
  let toZero := sub64 phdr.memsz phdr.filesz % 2 ^ 32
  let mem := if toZero ≠ 0 then memsetZero mem (add64 loadVaddr phdr.filesz % 2 ^ 32) toZero else mem
  elf64ApplyRelocations fd hdr (loadVaddr % 2 ^ 32) phdr.vaddr (phdr.memsz % 2 ^ 32) slide (s.write mem)

/-- A round of `elf64_load`, with `*top`. -/
def loadPhdr (fd : FileHandle σ) (hdr : Elf64Hdr) (slide allocType : ℕ) (r : ℕ × Loading σ) (i : ℕ) :
    Except LoadError (ℕ × Loading σ) := do
  let (bytes, s) ← fread fd r.2 (add64 hdr.phoff (i * 56)) 56
  let phdr := Elf64Phdr.ofBytes bytes
  if phdr.type ≠ 0x00000001 then .ok (r.1, s)
  else do
    let thisTop := add64 (phdr.loadVaddr slide) phdr.memsz
    let s ← loadSegment fd hdr slide allocType phdr s
    .ok (if thisTop > r.1 then thisTop else r.1, s)

/-- `elf64_load`: the entry point, the top and what it leaves. -/
def elf64Load (fd : FileHandle σ) (s : Loading σ) (slide allocType : ℕ) :
    Except LoadError (ℕ × ℕ × Loading σ) := do
  let (bytes, s) ← fread fd s 0 64
  let hdr := Elf64Hdr.ofBytes bytes
  if hdr.ident.take 4 ≠ [0x7f, 0x45, 0x4c, 0x46] then .error .notElf
  else if hdr.ident.getD 5 0 ≠ 0x01 then .error .notLittleEndian
  else if hdr.machine ≠ 0x3e then .error .notX86_64
  else do
    let (top, s) ← (List.range hdr.phNum).foldlM (loadPhdr fd hdr slide allocType) (0, s)
    .ok (if hdr.type = 0x0003 then add64 hdr.entry slide else hdr.entry, top, s)

/-! ## What the file describes -/

def elfHdr (file : Memory) : Elf64Hdr := .ofBytes (loadBytes file 64 0)

def elfPhdr (file : Memory) (i : ℕ) : Elf64Phdr :=
  .ofBytes (loadBytes file 56 (add64 (elfHdr file).phoff (i * 56)))

def elfShdr (file : Memory) (i : ℕ) : Elf64Shdr :=
  .ofBytes (loadBytes file 64 (add64 (elfHdr file).shoff (i * 64)))

def elfRela (file : Memory) (shdr : Elf64Shdr) (offset : ℕ) : Elf64Rela :=
  .ofBytes (loadBytes file 24 (add64 shdr.offset offset))

/-- The segments of the headers from a list that are to be loaded. -/
def segmentsOf (file : Memory) (indices : List ℕ) : List Elf64Phdr :=
  (indices.map (elfPhdr file)).filter (·.type = 1)

def elfSegments (file : Memory) : List Elf64Phdr := segmentsOf file (List.range (elfHdr file).phNum)

/-- The relocations of a section. -/
def relasOf (file : Memory) (shdr : Elf64Shdr) : List Elf64Rela :=
  if shdr.type = 4 then shdr.offsets.map (elfRela file shdr) else []

def elfRelas (file : Memory) : List Elf64Rela :=
  if (elfHdr file).type = 3 then
    (List.range (elfHdr file).shNum).flatMap fun i => relasOf file (elfShdr file i) else []

/-- The relocation lies in a segment. -/
def Elf64Rela.Inside (r : Elf64Rela) (vaddr size : ℕ) : Prop :=
  vaddr ≤ r.addr ∧ r.addr + 8 ≤ vaddr + size

instance (r : Elf64Rela) (vaddr size : ℕ) : Decidable (r.Inside vaddr size) :=
  inferInstanceAs (Decidable (_ ∧ _))

/-- The image of a segment, by the addresses it is linked for: the bytes of the file, zeros behind
them, and every word with a relocation moved along. -/
def elfImage (file : Memory) (slide : ℕ) (phdr : Elf64Phdr) : Memory :=
  (elfRelas file).foldl
    (fun m r => if r.Inside phdr.vaddr phdr.memsz then storeLE m 8 r.addr (add64 slide r.addend) else m)
    fun v => if v - phdr.vaddr < phdr.filesz then file (phdr.offset + (v - phdr.vaddr)) else 0

/-- The reads of `elf64_load`. -/
inductive ElfRead (file : Memory) : (loc count : ℕ) → Prop
  | header : ElfRead file 0 64
  | phdr {i : ℕ} : i < (elfHdr file).phNum → ElfRead file (add64 (elfHdr file).phoff (i * 56)) 56
  | segment {phdr : Elf64Phdr} : phdr ∈ elfSegments file → ElfRead file phdr.offset phdr.filesz
  | shdr {i : ℕ} : (elfHdr file).type = 3 → i < (elfHdr file).shNum →
      ElfRead file (add64 (elfHdr file).shoff (i * 64)) 64
  | rela {i offset : ℕ} : (elfHdr file).type = 3 → i < (elfHdr file).shNum → (elfShdr file i).type = 4 →
      offset ∈ (elfShdr file i).offsets → ElfRead file (add64 (elfShdr file i).offset offset) 24

/-- The reads give the bytes of a file, and leave the driver so that the next ones do. -/
def FileHandle.Gives (fd : FileHandle σ) (good : σ → Prop) (file : Memory) (reads : ℕ → ℕ → Prop) : Prop :=
  ∀ (d d' : σ) (loc count : ℕ) (bytes : List UInt8), good d → reads loc count →
    fd.read d loc count = some (bytes, d') → bytes = loadBytes file count loc ∧ good d'

/-- A segment has room for the bytes of the file, and lies below 4 GiB. -/
structure Elf64Phdr.Loadable (slide : ℕ) (phdr : Elf64Phdr) : Prop where
  room : phdr.filesz ≤ phdr.memsz
  low : phdr.loadVaddr slide + phdr.memsz < 2 ^ 32
  virt : phdr.vaddr + phdr.memsz < 2 ^ 64

/-- No number that the headers give wraps around. -/
structure ElfLoadable (file : Memory) (slide : ℕ) : Prop where
  segments : ∀ phdr ∈ elfSegments file, phdr.Loadable slide
  relas : ∀ r ∈ elfRelas file, r.addr + 8 < 2 ^ 64

/-- The segments lie in memory as the file describes them. -/
def ImageAt (file : Memory) (slide : ℕ) (phdr : Elf64Phdr) (m : Memory) : Prop :=
  ∀ v, phdr.vaddr ≤ v → v < phdr.vaddr + phdr.memsz →
    m (phdr.loadVaddr slide + (v - phdr.vaddr)) = elfImage file slide phdr v

/-! ## Relocations -/

/-- A relocation in a buffer. -/
def relocate (buffer vaddr size slide : ℕ) (m : Memory) (r : Elf64Rela) : Memory :=
  if r.Inside vaddr size then storeLE m 8 (buffer + (r.addr - vaddr)) (add64 slide r.addend) else m

/-- A step that reads from the file and writes to memory only. -/
def Writes (good : σ → Prop) (s t : Loading σ) (mem : Memory) : Prop :=
  good t.disk ∧ t.boot = { s.boot with mem }

variable {fd : FileHandle σ} {good : σ → Prop} {file : Memory} {s t : Loading σ}
  {buffer vaddr size slide : ℕ}

/-- A read of the file that is expected gives its bytes and leaves the table and the memory alone.
-/
theorem fread_spec {loc count : ℕ} {bytes : List UInt8} {reads : ℕ → ℕ → Prop}
    (hfd : fd.Gives good file reads) (hgood : good s.disk) (hread : reads loc count)
    (h : fread fd s loc count = .ok (bytes, t)) :
    bytes = loadBytes file count loc ∧ good t.disk ∧ t.boot = s.boot := by
  rw [fread] at h
  split at h
  · cases h
  · next bytes' disk hdisk =>
    obtain ⟨rfl, rfl⟩ := Prod.mk.inj (Except.ok.inj h)
    obtain ⟨hbytes, hgood'⟩ := hfd _ _ _ _ _ hgood hread hdisk
    exact ⟨hbytes, hgood', rfl⟩

/-- Reads before a write do not count. -/
theorem Writes.of_boot {u : Loading σ} {mem : Memory} (h : Writes good u t mem) (hboot : u.boot = s.boot) :
    Writes good s t mem := ⟨h.1, by rw [h.2, hboot]⟩

/-- Steps in a row. -/
theorem foldlM_writes {α : Type} {f : Loading σ → α → Except LoadError (Loading σ)}
    {g : Memory → α → Memory} {l : List α} (hgood : good s.disk)
    (hstep : ∀ a ∈ l, ∀ s t, good s.disk → f s a = .ok t → Writes good s t (g s.boot.mem a))
    (h : l.foldlM f s = .ok t) : Writes good s t (l.foldl g s.boot.mem) := by
  induction l generalizing s with
  | nil =>
    obtain rfl := Except.ok.inj h
    exact ⟨hgood, rfl⟩
  | cons a l ih =>
    rw [List.foldlM_cons] at h
    obtain ⟨u, hfirst, h⟩ := bind_eq_ok.1 h
    obtain ⟨hu, hboot⟩ := hstep a List.mem_cons_self s u hgood hfirst
    obtain ⟨ht, hrest⟩ := ih hu (fun b hb => hstep b (List.mem_cons_of_mem _ hb)) h
    exact ⟨ht, by rw [hrest, hboot, List.foldl_cons]⟩

/-- One entry of a relocation section is read and applied. -/
theorem applyRela_spec {shdr : Elf64Shdr} {offset : ℕ} (hfd : fd.Gives good file (ElfRead file))
    (hgood : good s.disk) (hread : ElfRead file (add64 shdr.offset offset) 24)
    (haddr : (elfRela file shdr offset).addr + 8 < 2 ^ 64) (hvirt : vaddr + size < 2 ^ 64)
    (hlow : buffer + size ≤ 2 ^ 32) (h : applyRela fd buffer vaddr size slide shdr s offset = .ok t) :
    Writes good s t (relocate buffer vaddr size slide s.boot.mem (elfRela file shdr offset)) := by
  obtain ⟨⟨bytes, u⟩, hbytes, h⟩ := bind_eq_ok.1 h
  obtain ⟨rfl, hu, hboot⟩ := fread_spec hfd hgood hread hbytes
  dsimp only at h
  rw [← elfRela] at h
  generalize elfRela file shdr offset = r at h haddr ⊢
  rw [add64_of_lt hvirt, add64_of_lt haddr] at h
  rw [relocate]
  split at h
  · cases h
  split at h
  · next hbefore =>
    obtain rfl := Except.ok.inj h
    rw [if_neg fun hin => absurd hin.1 (not_le.2 hbefore)]
    exact ⟨hu, hboot⟩
  split at h
  · next hafter =>
    obtain rfl := Except.ok.inj h
    rw [if_neg fun hin => absurd hin.2 (not_le.2 hafter)]
    exact ⟨hu, hboot⟩
  · next hlo hhi =>
    obtain rfl := Except.ok.inj h
    have hin : r.Inside vaddr size := ⟨not_lt.1 hlo, not_lt.1 hhi⟩
    have hptr : (buffer + 2 ^ 64 - vaddr + r.addr) % 2 ^ 32 = buffer + (r.addr - vaddr) := by
      obtain ⟨hle, hend⟩ := hin
      omega
    rw [if_pos hin, hptr, ← hboot]
    exact ⟨hu, by rw [Loading.write, hboot]⟩

/-- A relocation section has one relocation for each of its offsets. -/
theorem relasOf_of_type {shdr : Elf64Shdr} (h : shdr.type = 4) :
    relasOf file shdr = shdr.offsets.map (elfRela file shdr) := if_pos h

/-- The loops over the sections apply all relocations of the file, one after the other. -/
theorem elf64ApplyRelocations_spec (hfd : fd.Gives good file (ElfRead file)) (hgood : good s.disk)
    (hrelas : ∀ r ∈ elfRelas file, r.addr + 8 < 2 ^ 64) (hvirt : vaddr + size < 2 ^ 64)
    (hlow : buffer + size ≤ 2 ^ 32)
    (h : elf64ApplyRelocations fd (elfHdr file) buffer vaddr size slide s = .ok t) :
    Writes good s t ((elfRelas file).foldl (relocate buffer vaddr size slide) s.boot.mem) := by
  rw [elf64ApplyRelocations] at h
  rw [elfRelas] at hrelas ⊢
  split at h
  · next hne =>
    obtain rfl := Except.ok.inj h
    rw [if_neg hne]
    exact ⟨hgood, rfl⟩
  · next heq =>
    have hdyn : (elfHdr file).type = 3 := not_not.1 heq
    rw [if_pos hdyn] at hrelas ⊢
    rw [List.foldl_flatMap]
    refine foldlM_writes hgood (fun i hi s t hs hstep => ?_) h
    have hi' := List.mem_range.1 hi
    obtain ⟨⟨bytes, u⟩, hbytes, hstep⟩ := bind_eq_ok.1 hstep
    obtain ⟨rfl, hu, hboot⟩ := fread_spec hfd hs (.shdr hdyn hi') hbytes
    dsimp only at hstep
    rw [← elfShdr] at hstep
    have hrelas' : ∀ r ∈ relasOf file (elfShdr file i), r.addr + 8 < 2 ^ 64 :=
      fun r hr => hrelas r (List.mem_flatMap.2 ⟨i, hi, hr⟩)
    split at hstep
    · next hother =>
      obtain rfl := Except.ok.inj hstep
      rw [relasOf, if_neg hother]
      exact ⟨hu, hboot⟩
    split at hstep
    · cases hstep
    · next htype _ =>
      have htype' : (elfShdr file i).type = 4 := not_not.1 htype
      rw [relasOf_of_type htype'] at hrelas' ⊢
      rw [List.foldl_map, ← hboot]
      refine (foldlM_writes hu (fun o ho s t hs hstep => ?_) hstep).of_boot hboot
      exact applyRela_spec hfd hs (.rela hdyn hi' htype' ho)
        (hrelas' _ (List.mem_map_of_mem ho)) hvirt hlow hstep

/-- Relocations stay inside their buffer. -/
theorem relocate_of_outside {m : Memory} {r : Elf64Rela} {x : ℕ} (hx : x < buffer ∨ buffer + size ≤ x) :
    relocate buffer vaddr size slide m r x = m x := by
  rw [relocate]
  split
  · next hin =>
    obtain ⟨hlo, hhi⟩ := hin
    exact storeLE_of_outside _ _ _ _ _ (by omega)
  · rfl

/-- Relocations change nothing outside the buffer. -/
theorem relocateAll_of_outside {relas : List Elf64Rela} {m : Memory} {x : ℕ}
    (hx : x < buffer ∨ buffer + size ≤ x) :
    relas.foldl (relocate buffer vaddr size slide) m x = m x := by
  induction relas generalizing m with
  | nil => rfl
  | cons r relas ih =>
    rw [List.foldl_cons, ih]
    exact relocate_of_outside hx

/-- A buffer is relocated as what it is a copy of. -/
theorem relocateAll_shift {relas : List Elf64Rela} {m m' : Memory} {v : ℕ}
    (hsame : ∀ v, vaddr ≤ v → v < vaddr + size → m (buffer + (v - vaddr)) = m' v)
    (hlo : vaddr ≤ v) (hhi : v < vaddr + size) :
    relas.foldl (relocate buffer vaddr size slide) m (buffer + (v - vaddr)) =
      relas.foldl (fun m r => if r.Inside vaddr size then storeLE m 8 r.addr (add64 slide r.addend) else m)
        m' v := by
  induction relas generalizing m m' with
  | nil => exact hsame v hlo hhi
  | cons r relas ih =>
    rw [List.foldl_cons, List.foldl_cons]
    refine ih fun w hw hwend => ?_
    rw [relocate]
    split
    · next hin =>
      obtain ⟨k, rfl⟩ := Nat.exists_eq_add_of_le hw
      obtain ⟨j, hj⟩ := Nat.exists_eq_add_of_le hin.1
      rw [hj, Nat.add_sub_cancel_left, Nat.add_sub_cancel_left]
      refine storeLE_shift ?_
      have hk := hsame _ hw hwend
      rwa [Nat.add_sub_cancel_left] at hk
    · exact hsame w hw hwend

/-! ## Segments -/

variable {firmware taken : List MmapEntry} {phdr : Elf64Phdr} {allocType : ℕ}

/-- The range of a segment. -/
def Elf64Phdr.range (slide allocType : ℕ) (phdr : Elf64Phdr) : MmapEntry :=
  ⟨phdr.loadVaddr slide, phdr.memsz, allocType⟩

/-- Another name for the error does not change a result. -/
theorem mapError_eq_ok {ε ε' α : Type} {f : ε → ε'} {x : Except ε α} {a : α} :
    x.mapError f = .ok a ↔ x = .ok a := by
  cases x with
  | error e => exact ⟨fun h => (by cases h), fun h => (by cases h)⟩
  | ok b =>
    exact ⟨fun h => congrArg Except.ok (Except.ok.inj h), fun h => congrArg Except.ok (Except.ok.inj h)⟩

/-- The memory with a segment before its relocations. -/
def segmentFilled (file m : Memory) (base : ℕ) (phdr : Elf64Phdr) : Memory :=
  if phdr.memsz - phdr.filesz ≠ 0 then
    memsetZero (storeBytes m base (loadBytes file phdr.filesz phdr.offset)) (base + phdr.filesz)
      (phdr.memsz - phdr.filesz)
  else storeBytes m base (loadBytes file phdr.filesz phdr.offset)

/-- A filled segment has the bytes of the file and zeros behind them. -/
theorem segmentFilled_inside {m : Memory} {base i : ℕ} (hroom : phdr.filesz ≤ phdr.memsz)
    (hi : i < phdr.memsz) : segmentFilled file m base phdr (base + i) =
      if i < phdr.filesz then file (phdr.offset + i) else 0 := by
  rw [segmentFilled]
  split
  · rw [memsetZero]
    by_cases hlt : i < phdr.filesz
    · rw [if_neg (by omega), if_pos hlt, storeBytes_loadBytes _ _ hlt]
    · rw [if_pos (by omega), if_neg hlt]
  · rw [if_pos (by omega), storeBytes_loadBytes _ _ (by omega)]

/-- Filling a segment changes nothing outside it. -/
theorem segmentFilled_of_outside {m : Memory} {base x : ℕ} (hroom : phdr.filesz ≤ phdr.memsz)
    (hx : x < base ∨ base + phdr.memsz ≤ x) : segmentFilled file m base phdr x = m x := by
  have hcopy : storeBytes m base (loadBytes file phdr.filesz phdr.offset) x = m x :=
    storeBytes_of_outside _ _ _ _ (by rw [length_loadBytes]; omega)
  rw [segmentFilled]
  split
  · rw [memsetZero, if_neg (by omega), hcopy]
  · exact hcopy

/-- A segment is taken out of the memory map and filled. -/
theorem loadSegment_spec (hfd : fd.Gives good file (ElfRead file)) (hgood : good s.disk)
    (hrelas : ∀ r ∈ elfRelas file, r.addr + 8 < 2 ^ 64) (hseg : phdr ∈ elfSegments file)
    (hload : phdr.Loadable slide) (h : loadSegment fd (elfHdr file) slide allocType phdr s = .ok t) :
    good t.disk ∧ memmapAllocRange s.boot.memmap (phdr.loadVaddr slide) phdr.memsz allocType =
        .ok t.boot.memmap ∧
      ImageAt file slide phdr t.boot.mem ∧
      ∀ x, x ∉ (phdr.range slide allocType).bytes → t.boot.mem x = s.boot.mem x := by
  obtain ⟨hroom, hlow, hvirt⟩ := hload
  rw [loadSegment, Nat.mod_eq_of_lt (show phdr.loadVaddr slide < 2 ^ 32 by omega),
    Nat.mod_eq_of_lt (show phdr.memsz < 2 ^ 32 by omega)] at h
  obtain ⟨memmap, hmemmap, h⟩ := bind_eq_ok.1 h
  obtain ⟨⟨bytes, u⟩, hbytes, h⟩ := bind_eq_ok.1 h
  obtain ⟨rfl, hu, hboot⟩ := @fread_spec _ fd good file ⟨s.disk, ⟨memmap, s.boot.mem⟩⟩ u _ _ bytes _ hfd
    hgood (.segment hseg) hbytes
  dsimp only at h
  rw [sub64_of_le hroom (by omega), Nat.mod_eq_of_lt (show phdr.memsz - phdr.filesz < 2 ^ 32 by omega),
    add64_of_lt (show phdr.loadVaddr slide + phdr.filesz < 2 ^ 64 by omega),
    Nat.mod_eq_of_lt (show phdr.loadVaddr slide + phdr.filesz < 2 ^ 32 by omega)] at h
  rw [← segmentFilled, hboot] at h
  have happlied := fun hdisk => elf64ApplyRelocations_spec hfd hdisk hrelas hvirt hlow.le h
  obtain ⟨ht, hresult⟩ := happlied hu
  rw [Loading.write, hboot] at hresult
  rw [hresult]
  refine ⟨ht, mapError_eq_ok.1 hmemmap, fun v hlo hhi => ?_, fun x hx => ?_⟩
  · refine relocateAll_shift (fun w hw hwend => ?_) hlo hhi
    exact segmentFilled_inside hroom (by omega)
  · rw [MmapEntry.mem_bytes, Elf64Phdr.range] at hx
    dsimp only at hx
    have hout : x < phdr.loadVaddr slide ∨ phdr.loadVaddr slide + phdr.memsz ≤ x := by omega
    exact (relocateAll_of_outside hout).trans (segmentFilled_of_outside hroom hout)

/-! ## All segments -/

/-- Segments have been loaded one after the other. -/
structure Loaded (firmware taken : List MmapEntry) (good : σ → Prop) (file : Memory) (slide allocType : ℕ)
    (segments : List Elf64Phdr) (s t : Loading σ) : Prop where
  disk : good t.disk
  loader : Loader.Inv firmware ⟨t.boot, (segments.map (·.range slide allocType)).reverse ++ taken⟩
  image : ∀ phdr ∈ segments, ImageAt file slide phdr t.boot.mem
  frame : ∀ x, (∀ phdr ∈ segments, x ∉ (phdr.range slide allocType).bytes) → t.boot.mem x = s.boot.mem x

/-- The end of the last segment. -/
def topOf (slide top : ℕ) (segments : List Elf64Phdr) : ℕ :=
  segments.foldl (fun top phdr => max top (phdr.loadVaddr slide + phdr.memsz)) top

/-- A program header counts if it is one of a segment to load. -/
theorem segmentsOf_cons (file : Memory) (i : ℕ) (indices : List ℕ) :
    segmentsOf file (i :: indices) = if (elfPhdr file i).type = 1 then
      elfPhdr file i :: segmentsOf file indices else segmentsOf file indices := by
  rw [segmentsOf, List.map_cons, List.filter_cons]
  simp only [decide_eq_true_eq]
  rfl

/-- The bytes of a segment are in the range that is taken for it. -/
theorem Elf64Phdr.mem_range {i : ℕ} (hi : i < phdr.memsz) :
    phdr.loadVaddr slide + i ∈ (phdr.range slide allocType).bytes := by
  rw [MmapEntry.mem_bytes, Elf64Phdr.range]
  dsimp only
  omega

/-- The image of a segment stays where no byte of its range is written. -/
theorem ImageAt.congr {m m' : Memory} (h : ImageAt file slide phdr m)
    (hsame : ∀ x ∈ (phdr.range slide allocType).bytes, m' x = m x) : ImageAt file slide phdr m' :=
  fun v hlo hhi => (hsame _ (Elf64Phdr.mem_range (by omega))).trans (h v hlo hhi)

/-- The loop over the program headers loads their segments, each beside those before it. -/
theorem Loader.Inv.loadPhdrs {indices : List ℕ} {top top' : ℕ} (hfd : fd.Gives good file (ElfRead file))
    (hfile : ElfLoadable file slide)
    (htype : allocType ≠ memmapUsable) (hindices : ∀ i ∈ indices, i < (elfHdr file).phNum)
    (hgood : good s.disk) (hi : Loader.Inv firmware ⟨s.boot, taken⟩)
    (h : indices.foldlM (loadPhdr fd (elfHdr file) slide allocType) (top, s) = .ok (top', t)) :
    Loaded firmware taken good file slide allocType (segmentsOf file indices) s t ∧
      top' = topOf slide top (segmentsOf file indices) := by
  induction indices generalizing s taken top with
  | nil =>
    obtain ⟨rfl, rfl⟩ := Prod.mk.inj (Except.ok.inj h)
    exact ⟨⟨hgood, hi, by simp [segmentsOf], fun _ _ => rfl⟩, rfl⟩
  | cons i indices ih =>
    obtain ⟨hlt, hrest⟩ := List.forall_mem_cons.1 hindices
    rw [List.foldlM_cons] at h
    obtain ⟨⟨top₁, u⟩, hfirst, h⟩ := bind_eq_ok.1 h
    obtain ⟨⟨bytes, v⟩, hbytes, hfirst⟩ := bind_eq_ok.1 hfirst
    obtain ⟨rfl, hv, hboot⟩ := fread_spec hfd hgood (.phdr hlt) hbytes
    dsimp only at hfirst
    rw [← elfPhdr] at hfirst
    rw [segmentsOf_cons]
    split at hfirst
    · next hother =>
      obtain ⟨rfl, rfl⟩ := Prod.mk.inj (Except.ok.inj hfirst)
      rw [if_neg hother]
      obtain ⟨hloaded, htop⟩ := ih hrest hv (hboot ▸ hi) h
      exact ⟨⟨hloaded.disk, hloaded.loader, hloaded.image, fun x hx => hboot ▸ hloaded.frame x hx⟩, htop⟩
    · next hsame =>
      have hload : (elfPhdr file i).type = 1 := not_not.1 hsame
      have hseg : elfPhdr file i ∈ elfSegments file := List.mem_filter.2
        ⟨List.mem_map_of_mem (List.mem_range.2 hlt), decide_eq_true hload⟩
      rw [if_pos hload]
      generalize elfPhdr file i = phdr at hfirst hseg ⊢
      have hloadable := hfile.segments phdr hseg
      obtain ⟨w, hsegment, hfirst⟩ := bind_eq_ok.1 hfirst
      obtain ⟨rfl, rfl⟩ := Prod.mk.inj (Except.ok.inj hfirst)
      obtain ⟨hw, hmemmap, himage, hframe⟩ :=
        loadSegment_spec hfd hv hfile.relas hseg hloadable hsegment
      rw [hboot] at hmemmap hframe
      have hlow := hloadable.low
      have hrange := memmapAllocRange_spec hi.bounded hi.settled (by omega) htype hmemmap
      have hnext : Loader.Inv firmware ⟨w.boot, phdr.range slide allocType :: taken⟩ :=
        hi.take hrange (.refl _)
      obtain ⟨hloaded, htop⟩ := ih hrest hw hnext h
      have htaken : ((phdr :: segmentsOf file indices).map (·.range slide allocType)).reverse ++ taken =
          ((segmentsOf file indices).map (·.range slide allocType)).reverse ++
            phdr.range slide allocType :: taken := by simp
      -- later segments do not meet this one
      have hclear : ∀ later ∈ segmentsOf file indices,
          Clear (later.range slide allocType) (phdr.range slide allocType) := fun later hlater =>
        (List.pairwise_append.1 hloaded.loader.disjoint).2.2 _
          (List.mem_reverse.2 (List.mem_map_of_mem hlater)) _ List.mem_cons_self
      refine ⟨⟨hloaded.disk, ?_, List.forall_mem_cons.2 ⟨?_, hloaded.image⟩, fun x hx => ?_⟩, ?_⟩
      · rw [htaken]
        exact hloaded.loader
      · refine @ImageAt.congr _ _ _ allocType _ _ himage fun x hx => hloaded.frame x fun later hlater => ?_
        exact Set.disjoint_right.1 (clear_iff.1 (hclear later hlater)) hx
      · obtain ⟨hhead, htail⟩ := List.forall_mem_cons.1 hx
        exact (hloaded.frame x htail).trans (hframe x hhead)
      · rw [htop, topOf, topOf, List.foldl_cons, add64_of_lt (by omega)]
        congr 1
        exact (max_def_lt _ _).symm

/-- From any state of the boot a file that is loaded lies in memory as it describes itself. -/
theorem Loader.Inv.elf64Load {entry top : ℕ} (hi : Loader.Inv firmware ⟨s.boot, taken⟩)
    (hfd : fd.Gives good file (ElfRead file)) (hgood : good s.disk) (hfile : ElfLoadable file slide)
    (htype : allocType ≠ memmapUsable) (h : elf64Load fd s slide allocType = .ok (entry, top, t)) :
    Loaded firmware taken good file slide allocType (elfSegments file) s t ∧
      top = topOf slide 0 (elfSegments file) ∧
      entry = if (elfHdr file).type = 3 then add64 (elfHdr file).entry slide else (elfHdr file).entry := by
  obtain ⟨⟨bytes, u⟩, hbytes, h⟩ := bind_eq_ok.1 h
  obtain ⟨rfl, hu, hboot⟩ := fread_spec hfd hgood .header hbytes
  dsimp only at h
  rw [← elfHdr] at h
  split at h
  · cases h
  split at h
  · cases h
  split at h
  · cases h
  obtain ⟨⟨top', v⟩, hphdrs, h⟩ := bind_eq_ok.1 h
  obtain ⟨rfl, hrest⟩ := Prod.mk.inj (Except.ok.inj h)
  obtain ⟨rfl, rfl⟩ := Prod.mk.inj hrest
  obtain ⟨hloaded, htop⟩ := @Loader.Inv.loadPhdrs σ fd good file u v slide firmware taken allocType _ 0 top'
    hfd hfile htype (fun i hi => List.mem_range.1 hi) hu (hboot ▸ hi) hphdrs
  exact ⟨⟨hloaded.disk, hloaded.loader, hloaded.image, fun x hx => hboot ▸ hloaded.frame x hx⟩, htop, rfl⟩

/-- Whatever the bootloader has taken before, a kernel that it loads lies in memory as its file describes
it, in ranges that were usable and that nothing else has. -/
theorem elf64Load_of_boot {memmap : List MmapEntry} {mem : Memory} {calls : List LoaderCall}
    {entry top : ℕ} (hfirmware : ∀ e ∈ firmware, Bounded e) (hinit : initMemmap firmware = .ok memmap)
    (hrun : Run LoaderStep ⟨⟨memmap, mem⟩, []⟩ calls ⟨s.boot, taken⟩) (hfd : fd.Gives good file (ElfRead file))
    (hgood : good s.disk) (hfile : ElfLoadable file slide) (htype : allocType ≠ memmapUsable)
    (h : elf64Load fd s slide allocType = .ok (entry, top, t)) :
    Loaded firmware taken good file slide allocType (elfSegments file) s t ∧
      top = topOf slide 0 (elfSegments file) ∧
      entry = if (elfHdr file).type = 3 then add64 (elfHdr file).entry slide else (elfHdr file).entry :=
  (Loader.inv_of_run hfirmware hinit hrun).elf64Load hfd hgood hfile htype h

/-! ## An example -/

/-- A file that is read as it is. -/
def plainFile (file : Memory) : FileHandle Unit where
  read _ loc count := some (loadBytes file count loc, ())

/-- A segment of 256 bytes of the file and 256 zeros for 1 MiB, with a relocation of its second word. -/
def sampleKernel : Memory := fun x =>
  [(0, 0x7f), (1, 0x45), (2, 0x4c), (3, 0x46), (4, 0x02), (5, 0x01), (16, 3), (18, 0x3e), (26, 0x10),
    (32, 64), (40, 120), (56, 1), (60, 1), (64, 1), (82, 0x10), (97, 0x01), (105, 0x02), (124, 4), (144, 184),
    (152, 24), (176, 24), (184, 0x08), (186, 0x10), (192, 8), (200, 5)].lookup x |>.getD 0

/-- Its segment. -/
theorem sampleKernel_segments : elfSegments sampleKernel = [⟨1, 0, 0x100000, 0x100, 0x200⟩] := by decide

/-- Its relocation. -/
theorem sampleKernel_relas : elfRelas sampleKernel = [⟨0x100008, 8, 5⟩] := by decide

/-- It can be loaded 4 KiB above its addresses. -/
theorem sampleKernel_loadable : ElfLoadable sampleKernel 0x1000 where
  segments := by
    rw [sampleKernel_segments, List.forall_mem_singleton]
    exact ⟨by decide, by decide, by decide⟩
  relas := by
    rw [sampleKernel_relas, List.forall_mem_singleton]
    decide

/-- Its reads give the bytes of the file. -/
theorem plainFile_gives (file : Memory) : (plainFile file).Gives (fun _ => True) file (ElfRead file) := by
  intro d d' loc count bytes _ _ h
  obtain ⟨rfl, -⟩ := Prod.mk.inj (Option.some.inj h)
  exact ⟨rfl, trivial⟩

/-- A call that does not fail has a result. -/
theorem ok_of_isSome {ε α : Type} {x : Except ε α} (h : x.toOption.isSome = true) : ∃ a, x = .ok a := by
  cases x with
  | error e => cases h
  | ok a => exact ⟨a, rfl⟩

/-- The word with the relocation. -/
theorem elf64Load_of_boot_sample : ∃ entry top t,
    elf64Load (plainFile sampleKernel) ⟨(), ⟨sampleMemmap, fun _ => 0⟩⟩ 0x1000 10 = .ok (entry, top, t) ∧
      entry = 0x101000 ∧ top = 0x101200 ∧ loadLE t.boot.mem 8 0x101008 = 0x1005 := by
  obtain ⟨⟨entry, top, t⟩, hload⟩ := ok_of_isSome (show (elf64Load (plainFile sampleKernel)
    ⟨(), ⟨sampleMemmap, fun _ => 0⟩⟩ 0x1000 10).toOption.isSome = true by decide +kernel)
  obtain ⟨hloaded, htop, hentry⟩ := elf64Load_of_boot (s := ⟨(), ⟨sampleMemmap, fun _ => 0⟩⟩)
    sampleFirmware_bounded (by decide) (Run.nil (⟨⟨sampleMemmap, fun _ => 0⟩, []⟩ : Loader))
    (plainFile_gives sampleKernel) trivial sampleKernel_loadable (by decide) hload
  rw [sampleKernel_segments] at hloaded htop
  have himage := hloaded.image _ List.mem_cons_self
  have hvaddr : Elf64Phdr.loadVaddr 0x1000 ⟨1, 0, 0x100000, 0x100, 0x200⟩ = 0x101000 := by decide
  have hword : loadLE t.boot.mem 8 0x101008 =
      loadLE (elfImage sampleKernel 0x1000 ⟨1, 0, 0x100000, 0x100, 0x200⟩) 8 0x100008 := by
    refine loadLE_shift fun i hi => ?_
    have hbyte := himage (0x100008 + i) (show 0x100000 ≤ 0x100008 + i by omega)
      (show 0x100008 + i < 0x100000 + 0x200 by omega)
    rw [hvaddr] at hbyte
    rw [← hbyte]
    exact congrArg t.boot.mem (show 0x101008 + i = 0x101000 + (0x100008 + i - 0x100000) by omega)
  refine ⟨entry, top, t, hload, hentry.trans (by decide), htop.trans (by decide), ?_⟩
  rw [hword, elfImage, sampleKernel_relas, List.foldl_cons, List.foldl_nil, if_pos (by decide),
    loadLE_storeLE_same]
  decide

end Orionis.Limine
