import Orionis.Foundations.CString
import Orionis.Foundations.LineSections

/-!
# The configuration file

`lib/config.c` keeps the text of `limine.cfg` in memory and walks over it one character at a
time. A line that begins with a colon opens a boot entry; choosing one cuts its text out, and the
keys are then looked up in that text alone.
-/

namespace Orionis.Limine

open Orionis.Foundations

/-! ## The source -/

/-- `SEPARATOR`. -/
def separator : UInt8 := 0x0A

def carriageReturn : UInt8 := 0x0D

def colon : UInt8 := 0x3A

def equalsSign : UInt8 := 0x3D

/-- The memory and `config_addr`. -/
structure Config where
  mem : Memory
  configAddr : ℕ

/-- The loops of `init_config` that remove carriage returns. A byte that moves into the place of a
removed one is not looked at. -/
def removeReturns (configAddr : ℕ) : (fuel i configSize : ℕ) → Memory → Memory
  | 0, _, _, m => m
  | fuel + 1, i, configSize, m =>
    if i < configSize then
      if m (configAddr + i) = carriageReturn then
        removeReturns configAddr fuel (i + 1) (configSize - 1)
          (copyRounds configAddr (configAddr + 1) (List.range' i (configSize - 1 - i)) m)
      else removeReturns configAddr fuel (i + 1) configSize m
    else m

/-- `init_config` from the allocation on, with the bytes of the file that was opened. -/
def initConfig (m : Memory) (configAddr : ℕ) (file : List UInt8) : Config :=
  let configSize := file.length + 1
  let m := storeBytes m configAddr (List.replicate configSize 0)
  ⟨removeReturns configAddr configSize 0 configSize (storeBytes m configAddr file), configAddr⟩

/-- `while (*p != ':')`, the inner loop of the search for an entry, none inside where it ends
with the text. -/
def seekColon (m : Memory) : (fuel p : ℕ) → Option (Option ℕ)
  | 0, _ => none
  | fuel + 1, p =>
    if m p = colon then some (some p)
    else if m p = 0 then some none
    else seekColon m fuel (p + 1)

/-- The loop over `i <= index` in `config_get_entry_name` and `config_set_entry`, with the entries
still to pass. A colon within a line does not count. -/
def seekEntry (c : Config) : (fuel p left : ℕ) → Option (Option ℕ)
  | 0, _, _ => none
  | fuel + 1, p, left =>
    (seekColon c.mem (fuel + 1) p).bind fun found =>
      match found with
      | none => some none
      | some p =>
        let p := p + 1
        if p - 1 ≠ c.configAddr ∧ c.mem (p - 2) ≠ separator then seekEntry c fuel p left
        else
          match left with
          | 0 => some (some p)
          | left + 1 => seekEntry c fuel p left

/-- The copying loop of `config_get_entry_name`, with the rounds that `limit` allows. -/
def copyName (m : Memory) : (rounds p : ℕ) → List UInt8
  | 0, _ => []
  | rounds + 1, p => if m p = separator then [] else m p :: copyName m rounds (p + 1)

/-- `config_get_entry_name`, none inside for -1, with the bytes it puts into `ret`. -/
def configGetEntryName (c : Config) (fuel index limit : ℕ) : Option (Option (List UInt8)) :=
  (seekEntry c fuel c.configAddr index).map fun found =>
    found.map fun p => copyName c.mem ((limit + (2 ^ 32 - 1)) % 2 ^ 32) p ++ [0]

/-- The loop at `cont` in `config_set_entry`. -/
def seekEnd (m : Memory) : (fuel p : ℕ) → Option ℕ
  | 0, _ => none
  | fuel + 1, p =>
    if m p ≠ colon ∧ m p ≠ 0 then seekEnd m fuel (p + 1)
    else if m p ≠ 0 ∧ m (p - 1) ≠ separator then seekEnd m fuel (p + 1)
    else some p

/-- `config_set_entry`, none inside for -1. -/
def configSetEntry (c : Config) (fuel index : ℕ) : Option (Option Config) :=
  (seekEntry c fuel c.configAddr index).bind fun found =>
    match found with
    | none => some none
    | some p => (seekEnd c.mem fuel p).map fun q => some ⟨Function.update c.mem q 0, p⟩

/-- `strncmp` with the first bytes of a string. -/
def strncmp (m : Memory) : (s1 : ℕ) → (s2 : List UInt8) → ℤ
  | _, [] => 0
  | s1, c2 :: s2 =>
    if m s1 ≠ c2 then (if (m s1).toInt8 < c2.toInt8 then -1 else 1)
    else if m s1 = 0 then 0
    else strncmp m (s1 + 1) s2

/-- The copying loop of `config_get_value`. -/
def copyValue (m : Memory) (limit a : ℕ) : (fuel j : ℕ) → Option (List UInt8)
  | 0, _ => none
  | fuel + 1, j =>
    if m (a + j) ≠ separator ∧ m (a + j) ≠ 0 then
      if j = limit - 1 then some []
      else (copyValue m limit a fuel (j + 1)).map (m (a + j) :: ·)
    else some []

/-- The loop of `config_get_value`. -/
def getValueLoop (c : Config) (limit : ℕ) (key : List UInt8) :
    (fuel i index : ℕ) → Option (Option (List UInt8))
  | 0, _, _ => none
  | fuel + 1, i, index =>
    if c.mem (c.configAddr + i) = 0 then some none
    else if strncmp c.mem (c.configAddr + i) key = 0 ∧
        c.mem (c.configAddr + i + key.length) = equalsSign then
      if i ≠ 0 ∧ c.mem (c.configAddr + i - 1) ≠ separator then
        getValueLoop c limit key fuel (i + 1) index
      else if index ≠ 0 then getValueLoop c limit key fuel (i + 1) (index - 1)
      else (copyValue c.mem limit (c.configAddr + (i + key.length + 1)) fuel 0).map some
    else getValueLoop c limit key fuel (i + 1) index

/-- `config_get_value`, none inside for NULL, with the string it leaves in `buf`. -/
def configGetValue (c : Config) (fuel index limit : ℕ) (key : List UInt8) :
    Option (Option (List UInt8)) :=
  if limit = 0 then some none else getValueLoop c limit key fuel 0 index

/-! ## Carriage returns -/

/-- What is left of a text: of two carriage returns in a row, the second one stays. -/
def withoutReturns : List UInt8 → List UInt8
  | [] => []
  | c :: rest =>
    if c = carriageReturn then
      match rest with
      | [] => []
      | d :: rest => d :: withoutReturns rest
    else c :: withoutReturns rest

/-- A character that is no carriage return stays. -/
theorem withoutReturns_cons {c : UInt8} (hc : c ≠ carriageReturn) (rest : List UInt8) :
    withoutReturns (c :: rest) = c :: withoutReturns rest := by
  rw [withoutReturns.eq_def]
  simp [hc]

section Returns

variable {m : Memory} {a i fuel : ℕ} {rest : List UInt8}

/-- One removal moves every later byte down by one. -/
theorem copyRounds_shift (m : Memory) (a : ℕ) {i n k : ℕ} (hk : k < n) :
    copyRounds a (a + 1) (List.range' i n) m (a + (i + k)) = m (a + i + (k + 1)) := by
  have hfresh : (List.range' i n).Pairwise fun x y => a + x ≠ a + 1 + y ∧ x ≠ y :=
    (List.pairwise_lt_range' (s := i) (n := n)).imp fun h => by omega
  rw [copyRounds_apply m hfresh (List.mem_range'_1.2 (by omega))]
  congr 1
  omega

/-- A pass of the copy loop leaves the bytes before its first round. -/
theorem copyRounds_below (m : Memory) (a : ℕ) {i n x : ℕ} (hx : x < a + i) :
    copyRounds a (a + 1) (List.range' i n) m x = m x := by
  apply copyRounds_of_outside
  intro j hj
  obtain ⟨hle, -⟩ := List.mem_range'_1.1 hj
  omega

/-- The loops leave the text without its carriage returns, and nothing before it changes. -/
theorem removeReturns_spec (hbytes : loadBytes m rest.length (a + i) = rest)
    (hfuel : rest.length ≤ fuel) :
    loadBytes (removeReturns a fuel i (i + rest.length) m) (withoutReturns rest).length (a + i) =
        withoutReturns rest ∧
      ∀ x < a + i, removeReturns a fuel i (i + rest.length) m x = m x := by
  induction rest using withoutReturns.induct generalizing m i fuel with
  | case1 =>
    cases fuel with
    | zero => exact ⟨rfl, fun _ _ => rfl⟩
    | succ fuel => simp [removeReturns, withoutReturns, loadBytes]
  | case2 =>
    obtain ⟨fuel, rfl⟩ : ∃ k, fuel = k + 1 := ⟨fuel - 1, by simp at hfuel; omega⟩
    have hcr : m (a + i) = carriageReturn := (List.cons.inj hbytes).1
    have hlast : removeReturns a (fuel + 1) i (i + 1) m =
        removeReturns a fuel (i + 1) i m := by
      simp [removeReturns, hcr, copyRounds]
    have hdone : removeReturns a fuel (i + 1) i m = m := by
      cases fuel with
      | zero => rfl
      | succ fuel => simp [removeReturns]
    rw [List.length_singleton, hlast, hdone]
    exact ⟨by simp [withoutReturns, loadBytes], fun _ _ => rfl⟩
  | case3 d rest ih =>
    obtain ⟨fuel, rfl⟩ : ∃ k, fuel = k + 1 := ⟨fuel - 1, by simp at hfuel; omega⟩
    obtain ⟨hcr, hbytes⟩ := List.cons.inj hbytes
    obtain ⟨hd, hrest⟩ := List.cons.inj hbytes
    have hstep : removeReturns a (fuel + 1) i (i + (carriageReturn :: d :: rest).length) m =
        removeReturns a fuel (i + 1) (i + 1 + rest.length)
          (copyRounds a (a + 1) (List.range' i (rest.length + 1)) m) := by
      have hsize : i + (carriageReturn :: d :: rest).length - 1 = i + 1 + rest.length := by
        simp only [List.length_cons]
        omega
      have hcount : i + 1 + rest.length - i = rest.length + 1 := by omega
      rw [removeReturns, if_pos (by simp), if_pos hcr, hsize, hcount]
    have hroom : rest.length ≤ fuel := by
      simp only [List.length_cons] at hfuel
      omega
    have hmoved : loadBytes (copyRounds a (a + 1) (List.range' i (rest.length + 1)) m)
        rest.length (a + (i + 1)) = rest := by
      refine Eq.trans (loadBytes_shift fun k hk => ?_) hrest
      have h := copyRounds_shift m a (i := i) (n := rest.length + 1) (k := k + 1) (by omega)
      rw [show a + (i + 1) + k = a + (i + (k + 1)) by omega, h]
      congr 1
      omega
    obtain ⟨hleft, hbelow⟩ := ih hmoved hroom
    have hfirst : copyRounds a (a + 1) (List.range' i (rest.length + 1)) m (a + i) = d :=
      (copyRounds_shift m a (i := i) (k := 0) (Nat.succ_pos _)).trans hd
    rw [hstep]
    constructor
    · simp only [withoutReturns, ↓reduceIte, List.length_cons, loadBytes]
      rw [hbelow _ (by omega), hfirst]
      exact congrArg (d :: ·) hleft
    · intro x hx
      rw [hbelow x (by omega), copyRounds_below m a hx]
  | case4 c rest hc ih =>
    obtain ⟨fuel, rfl⟩ : ∃ k, fuel = k + 1 := ⟨fuel - 1, by simp at hfuel; omega⟩
    obtain ⟨hfirst, hrest⟩ := List.cons.inj hbytes
    have hstep : removeReturns a (fuel + 1) i (i + (c :: rest).length) m =
        removeReturns a fuel (i + 1) (i + 1 + rest.length) m := by
      rw [removeReturns, if_pos (by simp), if_neg (hfirst ▸ hc), List.length_cons,
        Nat.add_right_comm, Nat.add_assoc]
    have hroom : rest.length ≤ fuel := by
      simp only [List.length_cons] at hfuel
      omega
    obtain ⟨hleft, hbelow⟩ := ih (i := i + 1) hrest hroom
    rw [hstep]
    constructor
    · rw [withoutReturns_cons hc, List.length_cons, loadBytes, hbelow _ (by omega), hfirst]
      exact congrArg (c :: ·) hleft
    · intro x hx
      exact hbelow x (by omega)

/-- No other byte is lost. -/
theorem mem_withoutReturns {c : UInt8} (hc : c ≠ carriageReturn) (h : c ∈ rest) :
    c ∈ withoutReturns rest := by
  induction rest using withoutReturns.induct with
  | case1 => exact absurd h List.not_mem_nil
  | case2 => exact absurd (List.mem_singleton.1 h) hc
  | case3 d rest ih =>
    rw [withoutReturns.eq_def]
    have h : c = d ∨ c ∈ rest := by simpa [hc] using h
    simpa using h.imp_right ih
  | case4 d rest hd ih =>
    rw [withoutReturns_cons hd]
    have h : c = d ∨ c ∈ rest := by simpa using h
    simpa using h.imp_right ih

end Returns

/-- The text of a configuration file, up to its first NUL. -/
def configText (file : List UInt8) : List UInt8 := (withoutReturns (file ++ [0])).takeWhile (· ≠ 0)

/-- `init_config` leaves the text at `config_addr`. -/
theorem initConfig_stringAt (m : Memory) (configAddr : ℕ) (file : List UInt8) :
    StringAt (initConfig m configAddr file).mem configAddr (configText file) := by
  let m' := storeBytes m configAddr (List.replicate (file.length + 1) 0)
  have hzero : m' (configAddr + file.length) = 0 := by
    have h : loadBytes m' (file.length + 1) configAddr = List.replicate file.length 0 ++ [0] := by
      have hset := loadBytes_storeBytes_same m configAddr (List.replicate (file.length + 1) 0)
      rw [List.length_replicate] at hset
      exact hset.trans List.replicate_succ'
    rw [loadBytes_add] at h
    exact (List.cons.inj (List.append_inj' h rfl).2).1
  have hbytes : loadBytes (storeBytes m' configAddr file) (file ++ [0]).length configAddr =
      file ++ [0] := by
    rw [List.length_append, List.length_singleton, loadBytes_add, loadBytes_storeBytes_same]
    congr 1
    rw [loadBytes, storeBytes_of_outside _ _ _ _ (by omega), hzero, loadBytes]
  have h := (removeReturns_spec (a := configAddr) (i := 0) hbytes (Nat.le_refl _)).1
  have hnul : 0 ∈ withoutReturns (file ++ [0]) := mem_withoutReturns (by decide) (by simp)
  simp only [Nat.add_zero, Nat.zero_add] at h
  exact stringAt_of_loadBytes (by simpa [initConfig] using h) hnul

/-! ## Entries -/

section Entries

variable {c : Config} {m : Memory} {p left fuel : ℕ} {name rest text : List UInt8}

/-- A position at the beginning of a line. -/
def Config.AtStart (c : Config) (p : ℕ) : Prop := p = c.configAddr ∨ c.mem (p - 1) = separator

instance (c : Config) (p : ℕ) : Decidable (c.AtStart p) := inferInstanceAs (Decidable (_ ∨ _))

/-- Behind the beginning of the text, the byte before decides. -/
theorem Config.atStart_succ {d : UInt8} (hp : c.configAddr ≤ p) (hd : c.mem p = d) :
    c.AtStart (p + 1) ↔ d = separator := by
  have hne : p + 1 ≠ c.configAddr := by omega
  simp [Config.AtStart, hne, hd]

/-- Without a colon the search comes to the end of the string. -/
theorem seekColon_none (hs : StringAt m p rest) (hcolon : colon ∉ rest)
    (hfuel : rest.length < fuel) : seekColon m fuel p = some none := by
  induction fuel generalizing p rest with
  | zero => exact absurd hfuel (Nat.not_lt_zero _)
  | succ fuel ih =>
    cases rest with
    | nil =>
      have hz : m p = 0 := hs
      rw [seekColon, hz, if_neg (by decide), if_pos rfl]
    | cons d rest =>
      obtain ⟨hd, hne, hrest⟩ := hs
      obtain ⟨hhere, hcolon⟩ := not_or.1 (List.mem_cons.not.1 hcolon)
      rw [seekColon, hd, if_neg (Ne.symm hhere), if_neg hne]
      exact ih hrest hcolon (Nat.lt_of_succ_lt_succ hfuel)

/-- The search stops at the first colon. -/
theorem seekColon_some (hs : StringAt m p (name ++ colon :: rest)) (hcolon : colon ∉ name)
    (hfuel : name.length < fuel) : seekColon m fuel p = some (some (p + name.length)) := by
  induction fuel generalizing p name with
  | zero => exact absurd hfuel (Nat.not_lt_zero _)
  | succ fuel ih =>
    cases name with
    | nil =>
      rw [seekColon, if_pos hs.1]
      rfl
    | cons d name =>
      obtain ⟨hd, hne, hrest⟩ := hs
      obtain ⟨hhere, hcolon⟩ := not_or.1 (List.mem_cons.not.1 hcolon)
      rw [seekColon, hd, if_neg (Ne.symm hhere), if_neg hne,
        ih hrest hcolon (Nat.lt_of_succ_lt_succ hfuel), List.length_cons, Nat.add_assoc,
        Nat.add_comm 1]

/-- Up to the next colon no entry begins. -/
theorem textsBehind_skip (hs : StringAt c.mem p (name ++ rest)) (hcolon : colon ∉ name)
    (hp : c.configAddr ≤ p) :
    textsBehind separator colon (c.AtStart p) (name ++ rest) =
      textsBehind separator colon (c.AtStart (p + name.length)) rest := by
  induction name generalizing p with
  | nil => rfl
  | cons d name ih =>
    obtain ⟨hd, -, hrest⟩ := hs
    obtain ⟨hhere, hcolon⟩ := not_or.1 (List.mem_cons.not.1 hcolon)
    have hnext := ih hrest hcolon (by omega)
    rw [List.cons_append, textsBehind, if_neg fun h => hhere h.2.symm, List.nil_append,
      ← decide_eq_decide.2 (Config.atStart_succ hp hd), hnext, List.length_cons,
      Nat.add_assoc, Nat.add_comm 1]

/-- A colon counts at the beginning of a line. -/
theorem seekEntry_found {q : ℕ} (h : seekColon c.mem (fuel + 1) p = some (some q)) (left : ℕ) :
    seekEntry c (fuel + 1) p left =
      if c.AtStart q then
        match left with
        | 0 => some (some (q + 1))
        | left + 1 => seekEntry c fuel (q + 1) left
      else seekEntry c fuel (q + 1) left := by
  have hcond : (q + 1 - 1 ≠ c.configAddr ∧ c.mem (q + 1 - 2) ≠ separator) ↔ ¬c.AtStart q :=
    not_or.symm
  rw [seekEntry, h, Option.bind_some]
  by_cases hstart : c.AtStart q
  · rw [if_pos hstart]
    exact if_neg fun hn => hcond.1 hn hstart
  · rw [if_neg hstart]
    exact if_pos (hcond.2 hstart)

/-- The search finds the text behind the colon of an entry. -/
theorem seekEntry_spec (hs : StringAt c.mem p rest) (hp : c.configAddr ≤ p)
    (hfuel : rest.length < fuel) :
    seekEntry c fuel p left = some (((textsBehind separator colon (c.AtStart p) rest)[left]?).map
      fun text => p + rest.length - text.length) := by
  induction fuel generalizing rest p left with
  | zero => exact absurd hfuel (Nat.not_lt_zero _)
  | succ fuel ih =>
    by_cases hcolon : colon ∈ rest
    · obtain ⟨name, later, rfl, hname⟩ := List.eq_append_cons_of_mem hcolon
      simp only [List.length_append, List.length_cons] at hfuel ⊢
      obtain ⟨hd, -, hlater⟩ := hs.tail
      have hnext : ∀ left, seekEntry c fuel (p + name.length + 1) left =
          some (((textsBehind separator colon (c.AtStart (p + name.length + 1)) later)[left]?).map
            fun text => p + name.length + 1 + later.length - text.length) :=
        fun _ => ih hlater (by omega) (by omega)
      have hflag : decide (c.AtStart (p + name.length + 1)) = decide (colon = separator) :=
        decide_eq_decide.2 (Config.atStart_succ (by omega) hd)
      have hend : p + name.length + 1 + later.length = p + (name.length + (later.length + 1)) := by
        omega
      rw [hflag, hend] at hnext
      rw [seekEntry_found (seekColon_some hs hname (by omega)), textsBehind_skip hs hname hp,
        textsBehind]
      by_cases hstart : c.AtStart (p + name.length)
      · cases left with
        | zero =>
          have hpos : p + (name.length + (later.length + 1)) - later.length =
              p + name.length + 1 := by omega
          simp [hstart, hpos]
        | succ left => simp [hstart, hnext]
      · simp [hstart, hnext]
    · rw [seekEntry, seekColon_none hs hcolon hfuel]
      have hskip := @textsBehind_skip c p rest [] (by simpa using hs) hcolon hp
      rw [List.append_nil] at hskip
      rw [hskip]
      rfl

/-- The text of an entry ends before the next one. -/
theorem seekEnd_spec (hs : StringAt m p rest) (hfuel : rest.length < fuel) :
    seekEnd m fuel p =
      some (p + (textBefore separator colon (m (p - 1) = separator) rest).length) := by
  induction fuel generalizing p rest with
  | zero => exact absurd hfuel (Nat.not_lt_zero _)
  | succ fuel ih =>
    cases rest with
    | nil =>
      have hz : m p = 0 := hs
      simp [seekEnd, hz, textBefore]
    | cons d rest =>
      obtain ⟨hd, hne, hrest⟩ := hs
      have hnext : seekEnd m fuel (p + 1) =
          some (p + 1 + (textBefore separator colon (d = separator) rest).length) := by
        rw [← hd]
        exact ih hrest (Nat.lt_of_succ_lt_succ hfuel)
      have hlen : p + ((textBefore separator colon (d = separator) rest).length + 1) =
          p + 1 + (textBefore separator colon (d = separator) rest).length := by omega
      by_cases hcolon : d = colon
      · subst hcolon
        by_cases hstart : m (p - 1) = separator
        · simp [seekEnd, hd, hstart, textBefore]
        · simp [seekEnd, hd, hne, hstart, hnext, hlen, textBefore]
      · simp [seekEnd, hd, hne, hcolon, hnext, hlen, textBefore]

/-- The lines of a text. -/
def linesOf (text : List UInt8) : List (List UInt8) := text.splitOn separator

/-- The boot entries of a text, each as its name and its lines. -/
def entriesOf (text : List UInt8) : List (List (List UInt8)) := sections colon (linesOf text)

/-- The text behind the colon of an entry and the lines of the entry. -/
theorem textsBehind_linesOf (text : List UInt8) :
    textsBehind separator colon true text =
      (openings colon (linesOf text)).map [separator].intercalate := by
  rw [linesOf, ← textsBehind_intercalate (by decide) fun _ h => notMem_of_mem_splitOn h,
    List.intercalate_splitOn]

/-- Where an entry is found, the text behind its colon is cut off before the next one. -/
theorem configSetEntry_found {front behind : List UInt8} {index : ℕ}
    (hs : StringAt c.mem c.configAddr (front ++ colon :: behind))
    (hseek : seekEntry c fuel c.configAddr index = some (some (c.configAddr + front.length + 1)))
    (hfuel : behind.length < fuel) :
    ∃ c', configSetEntry c fuel index = some (some c') ∧
      c'.configAddr = c.configAddr + front.length + 1 ∧
      StringAt c'.mem c'.configAddr (textBefore separator colon false behind) := by
  obtain ⟨post, hpost⟩ := textBefore_initial separator colon false behind
  obtain ⟨hd, -, hbehind⟩ := hs.tail
  have hend := seekEnd_spec hbehind hfuel
  rw [Nat.add_sub_cancel, hd, decide_eq_false (show colon ≠ separator by decide)] at hend
  let p := c.configAddr + front.length + 1
  let cut := (textBefore separator colon false behind).length
  refine ⟨⟨Function.update c.mem (p + cut) 0, p⟩, ?_, rfl, (hpost ▸ hbehind).cut⟩
  rw [configSetEntry, hseek, Option.bind_some]
  exact congrArg (Option.map _) hend

/-- The lines of an entry and no others are left; where another entry follows, the last one is
empty. -/
theorem linesOf_textBefore {name : List UInt8} {later : List (List UInt8)}
    (hsep : ∀ line ∈ name :: later, separator ∉ line) :
    ∃ ends : List (List UInt8), (∀ line ∈ ends, line = []) ∧
      linesOf (textBefore separator colon false ([separator].intercalate (name :: later))) =
        firstSection colon (name :: later) ++ ends := by
  obtain ⟨ends, hends, hchosen⟩ := textBefore_intercalate (show colon ≠ separator by decide) name hsep
  refine ⟨ends, hends, ?_⟩
  rw [linesOf, hchosen]
  apply List.splitOn_intercalate
  · intro line hl
    cases List.mem_append.1 hl with
    | inl hfirst =>
      apply hsep
      rw [firstSection] at hfirst
      exact (List.cons_subset_cons name (List.takeWhile_subset _)) hfirst
    | inr hend => simp [hends line hend]
  · simp [firstSection]

/-- The search fails where there are not so many entries, and finds the text of the entry
otherwise. -/
theorem seekEntry_entry (hs : StringAt c.mem c.configAddr text) (hfuel : text.length < fuel)
    (index : ℕ) :
    match (entriesOf text)[index]? with
    | none => seekEntry c fuel c.configAddr index = some none
    | some entry => ∃ front name later,
        text = front ++ colon :: [separator].intercalate (name :: later) ∧
        (∀ line ∈ name :: later, separator ∉ line) ∧
        entry = firstSection colon (name :: later) ∧
        seekEntry c fuel c.configAddr index = some (some (c.configAddr + front.length + 1)) := by
  have hstart : decide (c.AtStart c.configAddr) = true := decide_eq_true (Or.inl rfl)
  have hseek := @seekEntry_spec c c.configAddr index fuel text hs (Nat.le_refl _) hfuel
  rw [hstart, textsBehind_linesOf, List.getElem?_map] at hseek
  rw [entriesOf, sections, List.getElem?_map]
  cases hopen : (openings colon (linesOf text))[index]? with
  | none => simpa [hopen] using hseek
  | some lines =>
    have hmem := List.mem_of_getElem? hopen
    obtain ⟨before, name, later, rfl, hlines⟩ := suffix_of_mem_openings hmem
    have hsep : ∀ line ∈ name :: later, separator ∉ line := by
      have hall : ∀ line ∈ (colon :: name) :: later, separator ∉ line := fun line hl =>
        notMem_of_mem_splitOn (hlines.symm ▸ List.mem_append_right _ hl)
      simpa [show separator ≠ colon by decide] using hall
    have hbehind : [separator].intercalate (name :: later) ∈
        textsBehind separator colon true text := by
      rw [textsBehind_linesOf]
      exact List.mem_map_of_mem hmem
    obtain ⟨front, hfront⟩ := suffix_of_mem_textsBehind hbehind
    refine ⟨front, name, later, hfront, hsep, rfl, ?_⟩
    have hlen := congrArg List.length hfront
    rw [List.length_append, List.length_cons] at hlen
    rw [hseek, hopen, Option.map_some, Option.map_some]
    congr 2
    omega

/-- `config_set_entry` fails where there are not so many entries, and leaves the lines of the
entry otherwise. -/
theorem configSetEntry_spec (hs : StringAt c.mem c.configAddr text) (hfuel : text.length < fuel)
    (index : ℕ) :
    match (entriesOf text)[index]? with
    | none => configSetEntry c fuel index = some none
    | some entry => ∃ c' chosen ends, configSetEntry c fuel index = some (some c') ∧
        StringAt c'.mem c'.configAddr chosen ∧ c.configAddr ≤ c'.configAddr ∧
        c'.configAddr + chosen.length ≤ c.configAddr + text.length ∧
        linesOf chosen = entry ++ ends ∧ ∀ line ∈ ends, line = [] := by
  have hseek := seekEntry_entry hs hfuel index
  cases hentry : (entriesOf text)[index]? with
  | none =>
    rw [hentry] at hseek
    exact congrArg (Option.bind · _) hseek
  | some entry =>
    rw [hentry] at hseek
    obtain ⟨front, name, later, rfl, hsep, rfl, hseek⟩ := hseek
    simp only [List.length_append, List.length_cons] at hfuel ⊢
    obtain ⟨c', hset, haddr, hchosen⟩ := configSetEntry_found hs hseek (by omega)
    obtain ⟨ends, hends, hleft⟩ := linesOf_textBefore hsep
    refine ⟨c', _, ends, hset, hchosen, by omega, ?_, hleft, hends⟩
    have hle := (textBefore_initial separator colon false
      ([separator].intercalate (name :: later))).length_le
    omega

/-- What is copied ends with the line, with the limit, or with the text. -/
theorem copyName_spec (hs : StringAt m p text) (rounds : ℕ) :
    (copyName m rounds p ++ [0]).takeWhile (· ≠ 0) =
      (text.takeWhile (· ≠ separator)).take rounds := by
  induction rounds generalizing p text with
  | zero => simp [copyName]
  | succ rounds ih =>
    cases text with
    | nil =>
      have hz : m p = 0 := hs
      simp [copyName, hz, show (0 : UInt8) ≠ separator by decide]
    | cons d text =>
      obtain ⟨hd, hne, hrest⟩ := hs
      by_cases hsep : d = separator
      · simp [copyName, hd, hsep]
      · simpa [copyName, hd, hsep, hne] using ih hrest

/-- `config_get_entry_name` fails where there are not so many entries, and otherwise leaves a
string that is the name of the entry cut to the limit. -/
theorem configGetEntryName_spec {limit : ℕ} (hs : StringAt c.mem c.configAddr text)
    (hfuel : text.length < fuel) (hlimit : 0 < limit) (hsize : limit < 2 ^ 32) (index : ℕ) :
    match (entriesOf text)[index]? with
    | none => configGetEntryName c fuel index limit = some none
    | some entry => ∃ ret, configGetEntryName c fuel index limit = some (some ret) ∧
        ret.takeWhile (· ≠ 0) = (entry.headD []).take (limit - 1) := by
  have hseek := seekEntry_entry hs hfuel index
  cases hentry : (entriesOf text)[index]? with
  | none =>
    rw [hentry] at hseek
    exact congrArg (Option.map _) hseek
  | some entry =>
    rw [hentry] at hseek
    obtain ⟨front, name, later, rfl, hsep, rfl, hseek⟩ := hseek
    have hrounds : (limit + (2 ^ 32 - 1)) % 2 ^ 32 = limit - 1 := by omega
    refine ⟨copyName c.mem (limit - 1) (c.configAddr + front.length + 1) ++ [0], ?_, ?_⟩
    · rw [configGetEntryName, hseek, hrounds, Option.map_some, Option.map_some]
    have hfirst : ((name ++ if later = [] then [] else
        separator :: [separator].intercalate later).drop 0).takeWhile (· ≠ separator) =
          name.drop 0 :=
      takeWhile_drop_append (hsep name List.mem_cons_self) (Nat.zero_le _) (by split <;> simp)
    rw [List.drop_zero, List.drop_zero, ← intercalate_eq_append] at hfirst
    have hcopy := copyName_spec hs.tail.2.2 (limit - 1)
    rwa [hfirst] at hcopy

end Entries

/-! ## Values -/

section Values

variable {c : Config} {m : Memory} {p fuel limit : ℕ} {key rest text : List UInt8}

/-- The comparison and the sign behind it find the key. -/
theorem strncmp_iff {sign : UInt8} (hs : StringAt m p rest) (hsign : sign ≠ 0) (hkey : 0 ∉ key) :
    (strncmp m p key = 0 ∧ m (p + key.length) = sign) ↔ key ++ [sign] <+: rest := by
  induction key generalizing p rest with
  | nil =>
    cases rest with
    | nil =>
      have hz : m p = 0 := hs
      simp [strncmp, hz, Ne.symm hsign]
    | cons d rest => simp [strncmp, hs.1, eq_comm]
  | cons k key ih =>
    obtain ⟨hk, hlater⟩ := not_or.1 (List.mem_cons.not.1 hkey)
    cases rest with
    | nil =>
      have hz : m p = 0 := hs
      have hne : strncmp m p (k :: key) ≠ 0 := by
        rw [strncmp, hz, if_pos hk]
        split <;> decide
      simp [hne]
    | cons d rest =>
      obtain ⟨hd, hne, hrest⟩ := hs
      by_cases heq : d = k
      · subst heq
        have h := ih hrest hlater
        rw [Nat.add_assoc, Nat.add_comm 1] at h
        simpa [strncmp, hd, hne] using h
      · have hdiff : strncmp m p (k :: key) ≠ 0 := by
          rw [strncmp, hd, if_pos heq]
          split <;> decide
        simp [hdiff, Ne.symm heq]

/-- The value is copied up to the end of its line or the limit. -/
theorem copyValue_spec {a j : ℕ} (hs : StringAt m (a + j) rest) (hfuel : rest.length < fuel)
    (hj : j ≤ limit - 1) :
    copyValue m limit a fuel j = some ((rest.takeWhile (· ≠ separator)).take (limit - 1 - j)) := by
  induction fuel generalizing rest j with
  | zero => exact absurd hfuel (Nat.not_lt_zero _)
  | succ fuel ih =>
    cases rest with
    | nil =>
      have hz : m (a + j) = 0 := hs
      simp [copyValue, hz]
    | cons d rest =>
      obtain ⟨hd, hne, hrest⟩ := hs
      by_cases hsep : d = separator
      · simp [copyValue, hd, hsep]
      · by_cases hend : j = limit - 1
        · simp [copyValue, hsep, hend]
        · have hleft : limit - 1 - j = limit - 1 - (j + 1) + 1 := by omega
          have hnext := ih (j := j + 1) hrest (Nat.lt_of_succ_lt_succ hfuel) (by omega)
          rw [copyValue, hd, if_pos ⟨hsep, hne⟩, if_neg hend, hnext, hleft]
          simp [hsep]

/-- The loop finds what stands behind the key at the beginning of a line. -/
theorem getValueLoop_spec {i index : ℕ} (hs : StringAt c.mem (c.configAddr + i) rest)
    (hfuel : rest.length < fuel) (hkey : 0 ∉ key) :
    getValueLoop c limit key fuel i index =
      some (((valuesBehind separator equalsSign key (c.AtStart (c.configAddr + i)) rest)[index]?).map
        (·.take (limit - 1))) := by
  induction fuel generalizing rest i index with
  | zero => exact absurd hfuel (Nat.not_lt_zero _)
  | succ fuel ih =>
    cases rest with
    | nil =>
      have hz : c.mem (c.configAddr + i) = 0 := hs
      simp [getValueLoop, hz, valuesBehind]
    | cons d rest =>
      obtain ⟨hd, hne, hrest⟩ := id hs
      have hflag : decide (c.AtStart (c.configAddr + (i + 1))) = decide (d = separator) :=
        decide_eq_decide.2 (Config.atStart_succ (Nat.le_add_right _ i) hd)
      have hnext : ∀ index, getValueLoop c limit key fuel (i + 1) index =
          some (((valuesBehind separator equalsSign key (c.AtStart (c.configAddr + (i + 1)))
            rest)[index]?).map (·.take (limit - 1))) :=
        fun _ => ih hrest (Nat.lt_of_succ_lt_succ hfuel)
      rw [hflag] at hnext
      have hbegin : (i ≠ 0 ∧ c.mem (c.configAddr + i - 1) ≠ separator) ↔
          ¬c.AtStart (c.configAddr + i) := by
        simp [Config.AtStart]
      rw [getValueLoop, hd, if_neg hne, valuesBehind]
      simp only [strncmp_iff hs (show equalsSign ≠ 0 by decide) hkey, hbegin]
      by_cases hfound : key ++ [equalsSign] <+: d :: rest
      · by_cases hstart : c.AtStart (c.configAddr + i)
        · cases index with
          | succ index => simp [hfound, hstart, hnext]
          | zero =>
            obtain ⟨post, hpost⟩ := id hfound
            have hlen : (key ++ [equalsSign]).length = key.length + 1 := List.length_append
            have hdrop : (d :: rest).drop (key.length + 1) = post := by
              rw [← hpost, ← hlen, List.drop_left]
            have hvalue : StringAt c.mem (c.configAddr + (i + key.length + 1) + 0) post := by
              have h := (hpost ▸ hs).tail
              rwa [hlen, Nat.add_assoc, ← Nat.add_assoc i] at h
            have hroom : post.length < fuel := by
              have h := congrArg List.length hpost
              simp only [List.length_append, List.length_cons] at h hfuel
              omega
            rw [hdrop]
            simp [hfound, hstart, copyValue_spec hvalue hroom (Nat.zero_le _)]
        · simp [hfound, hstart, hnext]
      · simp [hfound, hnext]

/-- `config_get_value` returns the values of the key among the lines, cut to the limit. -/
theorem configGetValue_spec {index : ℕ} (hs : StringAt c.mem c.configAddr text)
    (hfuel : text.length < fuel) (hlimit : 0 < limit) (hkey : 0 ∉ key) (hsep : separator ∉ key) :
    configGetValue c fuel index limit key =
      some (((values equalsSign key (linesOf text))[index]?).map (·.take (limit - 1))) := by
  have hstart : decide (c.AtStart (c.configAddr + 0)) = true := decide_eq_true (Or.inl rfl)
  have hword : separator ∉ key ++ [equalsSign] := by
    simpa [show separator ≠ equalsSign by decide] using hsep
  have hvalues : valuesBehind separator equalsSign key true text =
      values equalsSign key (linesOf text) := by
    rw [linesOf, ← valuesBehind_intercalate hword fun _ h => notMem_of_mem_splitOn h,
      List.intercalate_splitOn]
  rw [configGetValue, if_neg (Nat.ne_of_gt hlimit), getValueLoop_spec hs hfuel hkey, hstart,
    hvalues]

end Values

end Orionis.Limine
