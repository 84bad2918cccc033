import Orionis.Limine.Config

/-!
# Written configurations are read back

A configuration is some lines for the menu and the boot entries, each with a name and its lines.
However its lines end, the functions of `lib/config.c` find in the file the names of the entries
and, once an entry is chosen, the values its own lines give to every key.
-/

namespace Orionis.Limine

open Orionis.Foundations

/-! ## Configurations -/

/-- A line holds no NUL, separator or carriage return. -/
def Plain (line : List UInt8) : Prop := 0 ∉ line ∧ separator ∉ line ∧ carriageReturn ∉ line

instance : DecidablePred Plain := fun _ => inferInstanceAs (Decidable (_ ∧ _))

/-- A boot entry. Its lines do not begin with a colon. -/
structure BootEntry where
  name : List UInt8
  lines : List (List UInt8)
  plain : ∀ line ∈ name :: lines, Plain line
  unmarked : ∀ line ∈ lines, line.head? ≠ some colon

/-- The lines before the first entry, and the entries. -/
structure Configuration where
  globals : List (List UInt8)
  plain : ∀ line ∈ globals, Plain line
  unmarked : ∀ line ∈ globals, line.head? ≠ some colon
  entries : List BootEntry

/-- The name of an entry counts as its first line. -/
def BootEntry.contents (e : BootEntry) : List (List UInt8) := e.name :: e.lines

/-- The lines of the file. -/
def Configuration.lines (f : Configuration) : List (List UInt8) :=
  f.globals ++ f.entries.flatMap fun e => (colon :: e.name) :: e.lines

/-- How lines end, with or without a carriage return. -/
def lineEnding (windows : Bool) : List UInt8 :=
  if windows then [carriageReturn, separator] else [separator]

/-- The file. -/
def Configuration.write (windows : Bool) (f : Configuration) : List UInt8 :=
  (lineEnding windows).intercalate f.lines

/-- The file in memory. -/
def Configuration.loaded (windows : Bool) (m : Memory) (configAddr : ℕ) (f : Configuration) :
    Config :=
  initConfig m configAddr (f.write windows)

section Written

variable {f : Configuration} {line rest : List UInt8} {lines : List (List UInt8)}

/-- Every line of the file, its names included, is plain. -/
theorem Configuration.plain_lines (f : Configuration) {line : List UInt8} (h : line ∈ f.lines) :
    Plain line := by
  rw [Configuration.lines, List.mem_append, List.mem_flatMap] at h
  cases h with
  | inl hglobal => exact f.plain line hglobal
  | inr hentry =>
    obtain ⟨e, -, hline⟩ := hentry
    cases List.mem_cons.1 hline with
    | inl hname =>
      obtain ⟨hnul, hsep, hcr⟩ := e.plain e.name List.mem_cons_self
      rw [hname]
      exact ⟨by simp [hnul, show (0 : UInt8) ≠ colon by decide],
        by simp [hsep, show separator ≠ colon by decide],
        by simp [hcr, show carriageReturn ≠ colon by decide]⟩
    | inr hlater => exact e.plain line (List.mem_cons_of_mem _ hlater)

/-! ## Line endings -/

/-- A line without carriage returns is kept. -/
theorem withoutReturns_append (h : carriageReturn ∉ line) (rest : List UInt8) :
    withoutReturns (line ++ rest) = line ++ withoutReturns rest := by
  induction line with
  | nil => rfl
  | cons c line ih =>
    obtain ⟨hc, hline⟩ := not_or.1 (List.mem_cons.not.1 h)
    rw [List.cons_append, withoutReturns_cons (Ne.symm hc), ih hline, List.cons_append]

/-- Either line end becomes one separator. -/
theorem withoutReturns_lineEnding (windows : Bool) (rest : List UInt8) :
    withoutReturns (lineEnding windows ++ rest) = separator :: withoutReturns rest := by
  cases windows with
  | false => exact withoutReturns_cons (by decide) rest
  | true => simp [lineEnding, withoutReturns]

/-- Without carriage returns both ways to end a line are the same. -/
theorem withoutReturns_intercalate (windows : Bool)
    (hlines : ∀ line ∈ lines, carriageReturn ∉ line) :
    withoutReturns ((lineEnding windows).intercalate lines ++ [0]) =
      [separator].intercalate lines ++ [0] := by
  have hnul : withoutReturns [0] = [0] := by decide
  induction lines with
  | nil => simpa using hnul
  | cons line lines ih =>
    obtain ⟨hline, hlater⟩ := List.forall_mem_cons.1 hlines
    cases lines with
    | nil => simp [withoutReturns_append hline, hnul]
    | cons next lines =>
      simp only [List.intercalate_cons_cons, List.append_assoc] at ih ⊢
      rw [withoutReturns_append hline, withoutReturns_lineEnding, ih hlater]
      simp

/-- What `init_config` leaves of a written file are its lines, however they end. -/
theorem configText_write (windows : Bool) (f : Configuration) :
    configText (f.write windows) = [separator].intercalate f.lines := by
  have hnul : (0 : UInt8) ∉ [separator].intercalate f.lines :=
    notMem_intercalate (by decide) fun _ h => (f.plain_lines h).1
  have htake : ∀ c ∈ [separator].intercalate f.lines, decide (c ≠ 0) = true := fun c hc =>
    decide_eq_true fun h => hnul (h ▸ hc)
  rw [configText, Configuration.write,
    withoutReturns_intercalate windows fun _ h => (f.plain_lines h).2.2,
    List.takeWhile_append_of_pos htake]
  simp

/-- The text of the file, however its lines end. -/
theorem Configuration.loaded_stringAt (windows : Bool) (m : Memory) (configAddr : ℕ)
    (f : Configuration) :
    StringAt (f.loaded windows m configAddr).mem configAddr ([separator].intercalate f.lines) := by
  rw [← configText_write windows]
  exact initConfig_stringAt m configAddr (f.write windows)

/-! ## The entries of the file -/

/-- The sections of the lines are the entries they were written from. -/
theorem sections_entries (entries : List BootEntry) :
    sections colon (entries.flatMap fun e => (colon :: e.name) :: e.lines) =
      entries.map BootEntry.contents := by
  induction entries with
  | nil => rfl
  | cons e entries ih =>
    rw [List.flatMap_cons, List.cons_append, sections_cons e.unmarked, ih, List.map_cons,
      BootEntry.contents]
    intro line h
    cases entries with
    | nil => simp at h
    | cons next entries =>
      obtain rfl : colon :: next.name = line := by simpa using h
      rfl

/-- The entries of the written file are those of the configuration. -/
theorem entriesOf_write (f : Configuration) :
    entriesOf ([separator].intercalate f.lines) = f.entries.map BootEntry.contents := by
  have hlines : sections colon f.lines = f.entries.map BootEntry.contents := by
    rw [Configuration.lines, sections, openings_append f.unmarked]
    exact sections_entries f.entries
  rw [entriesOf, linesOf, ← hlines]
  by_cases hnil : f.lines = []
  · rw [hnil]
    decide
  · rw [List.splitOn_intercalate separator (fun _ h => (f.plain_lines h).2.1) hnil]

end Written

/-- Lines without a key give it nothing. -/
theorem values_append_empty {key : List UInt8} {lines ends : List (List UInt8)}
    (hends : ∀ line ∈ ends, line = []) :
    values equalsSign key (lines ++ ends) = values equalsSign key lines := by
  have hnone : values equalsSign key ends = [] := by
    rw [values, List.filterMap_eq_nil_iff]
    intro line h
    simp [valueIn, hends line h]
  rw [values, List.filterMap_append]
  exact (congrArg (lines.filterMap _ ++ ·) hnone).trans (List.append_nil _)

/-- For every configuration, however its lines end: the menu finds the names of the entries and no
others, and once an entry is chosen a key has the values that the lines of that entry give to it,
in their order and cut to the limit. -/
theorem config_of_write (m : Memory) (configAddr : ℕ) (windows : Bool) (f : Configuration)
    {fuel : ℕ} (hfuel : ([separator].intercalate f.lines).length < fuel) (index : ℕ) :
    match f.entries[index]? with
    | none =>
      configSetEntry (f.loaded windows m configAddr) fuel index = some none ∧
        ∀ limit, 0 < limit → limit < 2 ^ 32 →
          configGetEntryName (f.loaded windows m configAddr) fuel index limit =
            some none
    | some e =>
      (∀ limit, 0 < limit → limit < 2 ^ 32 → ∃ ret,
        configGetEntryName (f.loaded windows m configAddr) fuel index limit =
            some (some ret) ∧ ret.takeWhile (· ≠ 0) = e.name.take (limit - 1)) ∧
      ∃ c, configSetEntry (f.loaded windows m configAddr) fuel index = some (some c) ∧
        ∀ (n limit : ℕ) (key : List UInt8), 0 < limit → 0 ∉ key → separator ∉ key →
          configGetValue c fuel n limit key =
            some (((values equalsSign key (e.name :: e.lines))[n]?).map (·.take (limit - 1))) := by
  have htext := f.loaded_stringAt windows m configAddr
  have hset := @configSetEntry_spec (f.loaded windows m configAddr) fuel _ htext hfuel index
  have hname : ∀ limit, 0 < limit → limit < 2 ^ 32 → _ := fun limit hpos hsize =>
    configGetEntryName_spec htext hfuel hpos hsize index
  rw [entriesOf_write, List.getElem?_map] at hset
  simp only [entriesOf_write, List.getElem?_map] at hname
  cases hentry : f.entries[index]? with
  | none =>
    rw [hentry] at hset
    exact ⟨hset, by simpa [hentry] using hname⟩
  | some e =>
    rw [hentry] at hset
    obtain ⟨c, chosen, ends, hset, hchosen, haddr, hend, hleft, hends⟩ := hset
    refine ⟨by simpa [hentry, BootEntry.contents] using hname, c, hset, ?_⟩
    intro n limit key hpos hnul hsep
    have hshort : chosen.length < fuel := by
      have hbegin : configAddr ≤ c.configAddr := haddr
      have hlast : c.configAddr + chosen.length ≤
        configAddr + ([separator].intercalate f.lines).length := hend
      omega
    rw [configGetValue_spec hchosen hshort hpos hnul hsep, hleft, values_append_empty hends]
    rfl

/-- The configuration that boots the kernel. -/
def orionisConfig : Configuration where
  globals := [ascii "TIMEOUT=10", ascii "GRAPHICS=no"]
  plain := by decide
  unmarked := by decide
  entries := [{
    name := ascii "OrionisOS"
    lines := [ascii "PROTOCOL=stivale", ascii "KERNEL_PATH=bios://:0/kernel.elf"]
    plain := by decide
    unmarked := by decide }]

/-- The configuration of OrionisOS with CRLF line ends. -/
theorem config_of_write_orionis :
    ([separator].intercalate orionisConfig.lines).length < 200 ∧
      ∃ c, configSetEntry (orionisConfig.loaded true (fun _ => 0xCC) 0x1000) 200 0 =
          some (some c) ∧
        configGetValue c 200 0 32 (ascii "PROTOCOL") = some (some (ascii "stivale")) := by
  have hfuel : ([separator].intercalate orionisConfig.lines).length < 200 := by decide +kernel
  obtain ⟨-, c, hset, hvalue⟩ := config_of_write (fun _ => 0xCC) 0x1000 true orionisConfig hfuel 0
  refine ⟨hfuel, c, hset, ?_⟩
  rw [hvalue 0 32 (ascii "PROTOCOL") (by decide) (by decide) (by decide)]
  decide +kernel

end Orionis.Limine
