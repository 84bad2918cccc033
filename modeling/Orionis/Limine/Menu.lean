import Mathlib.Algebra.BigOperators.Group.List.Basic
import Orionis.Limine.ConfigFile
import Orionis.Limine.LineInput

/-!
# The boot menu

The menu lets the user move over the boot entries and boots the selected one when Enter is pressed
or when the countdown has run out. What is booted, with which protocol and which command line,
depends on the lines of that entry alone, and on what the user makes of the command line where the
edit key is pressed instead.
-/

namespace Orionis.Limine

open Orionis.Foundations

/-! ## The source -/

/-- `CMDLINE_MAX`. -/
def cmdlineMax : ℕ := 1024

/-- `char_value`. -/
def charValue (c : UInt8) : ℤ :=
  if 0x61 ≤ c ∧ c ≤ 0x7A then c.toNat - 0x61 + 10
  else if 0x41 ≤ c ∧ c ≤ 0x5A then c.toNat - 0x41 + 10
  else if 0x30 ≤ c ∧ c ≤ 0x39 then c.toNat - 0x30
  else -1

/-- `strtoui`, on 64 bits. -/
def strtoui (s : List UInt8) : ℕ :=
  s.foldl (fun n c => ((n * 10 + charValue c) % 2 ^ 64).toNat) 0

/-- A number of the configuration as an `int`. -/
def configInt (value : Option (List UInt8)) (default : ℤ) : ℤ :=
  (value.map fun text => Int.bmod (strtoui text) (2 ^ 32)).getD default

/-- Lookups of one key after the other, until one is found. -/
def firstValue (c : Config) (fuel limit : ℕ) : List String → Option (Option (List UInt8))
  | [] => some none
  | key :: keys =>
    (configGetValue c fuel 0 limit (ascii key)).bind fun value =>
      match value with
      | some text => some (some text)
      | none => firstValue c fuel limit keys

/-- The entries as the menu shows them. -/
def menuNames (c : Config) (fuel : ℕ) : (rounds index : ℕ) → Option (List (List UInt8))
  | 0, _ => none
  | rounds + 1, index =>
    (configGetEntryName c fuel index 1024).bind fun found =>
      match found with
      | none => some []
      | some name =>
        (menuNames c fuel rounds (index + 1)).map (name.takeWhile (· ≠ 0) :: ·)

/-- What `menu` does at `autoboot`. That an entry was not found is not looked at. -/
def autoboot (c : Config) (fuel cmdline : ℕ) (selected : ℤ) : Option Config :=
  (configSetEntry c fuel (selected % 2 ^ 32).toNat).bind fun chosen =>
    let c := chosen.getD c
    (firstValue c fuel cmdlineMax ["KERNEL_CMDLINE", "CMDLINE"]).map fun value =>
      { c with mem := storeBytes c.mem cmdline (value.getD [] ++ [0]) }

/-- How a key moves the selection. -/
def moveSelection (maxEntries selected key : ℤ) : ℤ :=
  if key = getcharCursorUp then if selected - 1 = -1 then maxEntries - 1 else selected - 1
  else if key = getcharCursorDown then if selected + 1 = maxEntries then 0 else selected + 1
  else selected

/-- How `menu` ends: it panics without entries, waits for a key, or returns. -/
inductive MenuEnd where
  | noEntries
  | waiting
  | boot (c : Config)

/-- The loop over the keys. -/
def menuKeys (c : Config) (fuel cmdline : ℕ) (maxEntries : ℤ) : ℤ → List ℕ → Option MenuEnd
  | _, [] => some .waiting
  | selected, key :: keys =>
    if getcharInternal key = 0x0D then (autoboot c fuel cmdline selected).map .boot
    else if getcharInternal key = 0x65 then
      (autoboot c fuel cmdline selected).bind fun c =>
        (gets c.mem cmdline cmdline cmdlineMax keys).map fun line =>
          match line with
          | none => .waiting
          | some (m, _) => .boot { c with mem := m }
    else menuKeys c fuel cmdline maxEntries
      (moveSelection maxEntries selected (getcharInternal key)) keys

/-- The countdown, none where it runs out. A key with the code 0 only ends one of its rounds. -/
def countdown : (rounds : ℕ) → List ℕ → Option (List ℕ)
  | 0, _ => none
  | _ + 1, [] => none
  | rounds + 1, key :: keys =>
    if getcharInternal key = 0 then countdown rounds keys else some (key :: keys)

/-- `menu`, with the keys that are pressed. -/
def menu (c : Config) (fuel cmdline : ℕ) (keys : List ℕ) : Option MenuEnd := do
  let selected := configInt (← configGetValue c fuel 0 16 (ascii "DEFAULT_ENTRY")) 0
  let timeout := configInt (← configGetValue c fuel 0 16 (ascii "TIMEOUT")) 5
  if timeout = 0 then (autoboot c fuel cmdline selected).map .boot
  else
    let names ← menuNames c fuel fuel 0
    if names.length = 0 then some .noEntries
    else
      match countdown (timeout % 2 ^ 32).toNat keys with
      | none => (autoboot c fuel cmdline selected).map .boot
      | some keys => menuKeys c fuel cmdline names.length selected keys

/-- The protocols of `entry`. -/
inductive Protocol where
  | stivale
  | stivale2
  | linux
  | chainload
  deriving DecidableEq

/-- The comparisons of `entry`, with what it panics with otherwise. -/
def protocolOf : Option (List UInt8) → Except String Protocol
  | none => .error "PROTOCOL not specified"
  | some proto =>
    if proto = ascii "stivale" then .ok .stivale
    else if proto = ascii "stivale2" then .ok .stivale2
    else if proto = ascii "linux" then .ok .linux
    else if proto = ascii "chainload" then .ok .chainload
    else .error "Invalid protocol specified"

/-- What `entry` loads behind `menu`. -/
def chooseProtocol (c : Config) (fuel : ℕ) : Option (Except String Protocol) :=
  (firstValue c fuel 32 ["KERNEL_PROTO", "PROTOCOL"]).map protocolOf

/-! ## Lookups -/

/-- The first value that some lines give to one of the keys. -/
def firstOf (lines : List (List UInt8)) (limit : ℕ) : List String → Option (List UInt8)
  | [] => none
  | key :: keys =>
    match (values equalsSign (ascii key) lines)[0]? with
    | some value => some (value.take (limit - 1))
    | none => firstOf lines limit keys

/-- A key that can be looked up. -/
def IsKey (key : String) : Prop := 0 ∉ ascii key ∧ separator ∉ ascii key

instance : DecidablePred IsKey := fun _ => inferInstanceAs (Decidable (_ ∧ _))

section Lookups

variable {c : Config} {fuel limit : ℕ} {text : List UInt8} {keys : List String}

/-- Empty lines give no values. -/
theorem firstOf_append_empty {lines ends : List (List UInt8)} (hends : ∀ line ∈ ends, line = []) :
    firstOf (lines ++ ends) limit keys = firstOf lines limit keys := by
  induction keys with
  | nil => rfl
  | cons key keys ih => rw [firstOf, firstOf, values_append_empty hends, ih]

/-- Lookups of several keys give the first value that the text has for one of them. -/
theorem firstValue_spec (hs : StringAt c.mem c.configAddr text) (hfuel : text.length < fuel)
    (hlimit : 0 < limit) (hkeys : ∀ key ∈ keys, IsKey key) :
    firstValue c fuel limit keys = some (firstOf (linesOf text) limit keys) := by
  induction keys with
  | nil => rfl
  | cons key keys ih =>
    obtain ⟨hkey, hlater⟩ := List.forall_mem_cons.1 hkeys
    rw [firstValue, firstOf, configGetValue_spec hs hfuel hlimit hkey.1 hkey.2, Option.bind_some]
    cases (values equalsSign (ascii key) (linesOf text))[0]? with
    | none => exact ih hlater
    | some value => rfl

/-- The value of a single key. -/
theorem configGetValue_eq_firstOf {key : String} (hs : StringAt c.mem c.configAddr text)
    (hfuel : text.length < fuel) (hlimit : 0 < limit) (hkey : IsKey key) :
    configGetValue c fuel 0 limit (ascii key) = some (firstOf (linesOf text) limit [key]) := by
  rw [configGetValue_spec hs hfuel hlimit hkey.1 hkey.2, firstOf]
  cases (values equalsSign (ascii key) (linesOf text))[0]? with
  | none => rfl
  | some value => rfl

/-! ## The entries that are shown -/

/-- Every entry has a colon of the text. -/
theorem length_entriesOf_le (text : List UInt8) : (entriesOf text).length ≤ text.length := by
  have h := congrArg List.length (textsBehind_linesOf text)
  rw [List.length_map] at h
  rw [entriesOf, sections, List.length_map, ← h]
  exact length_textsBehind_le separator colon true text

/-- The loop over the entries collects their names, cut to the limit, and ends behind the last one.
-/
theorem menuNames_spec (hs : StringAt c.mem c.configAddr text) (hfuel : text.length < fuel)
    {rounds index : ℕ} (hindex : index ≤ (entriesOf text).length)
    (hrounds : (entriesOf text).length < rounds + index) :
    menuNames c fuel rounds index =
      some (((entriesOf text).drop index).map fun entry => (entry.headD []).take 1023) := by
  induction rounds generalizing index with
  | zero => omega
  | succ rounds ih =>
    have hname := configGetEntryName_spec hs hfuel (show 0 < 1024 by decide) (by decide) index
    rw [menuNames]
    cases hentry : (entriesOf text)[index]? with
    | none =>
      rw [hentry] at hname
      have hend : (entriesOf text).length ≤ index := List.getElem?_eq_none_iff.1 hentry
      rw [hname, List.drop_of_length_le hend]
      rfl
    | some entry =>
      rw [hentry] at hname
      obtain ⟨ret, hret, hshown⟩ := hname
      obtain ⟨hlt, hget⟩ := List.getElem?_eq_some_iff.1 hentry
      rw [hret, Option.bind_some, ih (by omega) (by omega), List.drop_eq_getElem_cons hlt, hget,
        List.map_cons, ← hshown]
      rfl

end Lookups

/-! ## The entry that is booted -/

/-- The text of one entry is all that is left, and it does not meet the buffer of the command
line. -/
def Booted (c : Config) (fuel cmdline : ℕ) (entry : List (List UInt8)) : Prop :=
  ∃ chosen ends, StringAt c.mem c.configAddr chosen ∧ chosen.length < fuel ∧
    linesOf chosen = entry ++ ends ∧ (∀ line ∈ ends, line = []) ∧
    (cmdline + cmdlineMax ≤ c.configAddr ∨ c.configAddr + chosen.length < cmdline)

/-- The command line of an entry. -/
def commandLine (entry : List (List UInt8)) : List UInt8 :=
  (firstOf entry cmdlineMax ["KERNEL_CMDLINE", "CMDLINE"]).getD []

section Booting

variable {c : Config} {fuel cmdline : ℕ} {entry : List (List UInt8)} {text : List UInt8}

/-- The buffer of the command line may be written. -/
theorem Booted.sameOutside {m : Memory} (h : Booted c fuel cmdline entry)
    (hm : SameOutside cmdline cmdlineMax c.mem m) :
    Booted { c with mem := m } fuel cmdline entry := by
  obtain ⟨chosen, ends, htext, hshort, hlines, hends, hapart⟩ := h
  refine ⟨chosen, ends, htext.congr fun x hx hle => hm x ?_, hshort, hlines, hends, hapart⟩
  omega

/-- Every key has the values the lines of the entry give to it. -/
theorem Booted.values (h : Booted c fuel cmdline entry) {limit : ℕ} {key : List UInt8}
    (hlimit : 0 < limit) (hnul : 0 ∉ key) (hsep : separator ∉ key) (n : ℕ) :
    configGetValue c fuel n limit key =
      some (((values equalsSign key entry)[n]?).map (·.take (limit - 1))) := by
  obtain ⟨chosen, ends, htext, hshort, hlines, hends, -⟩ := h
  rw [configGetValue_spec htext hshort hlimit hnul hsep, hlines, values_append_empty hends]

/-- Lookups of several keys give the first value that the entry has for one of them. -/
theorem Booted.firstValue (h : Booted c fuel cmdline entry) {limit : ℕ} {keys : List String}
    (hlimit : 0 < limit) (hkeys : ∀ key ∈ keys, IsKey key) :
    firstValue c fuel limit keys = some (firstOf entry limit keys) := by
  obtain ⟨chosen, ends, htext, hshort, hlines, hends, -⟩ := h
  rw [firstValue_spec htext hshort hlimit hkeys, hlines, firstOf_append_empty hends]

/-- A value with its limit. -/
theorem length_firstOf_lt {lines : List (List UInt8)} {limit : ℕ} {keys : List String}
    {value : List UInt8} (hlimit : 0 < limit) (h : firstOf lines limit keys = some value) :
    value.length < limit := by
  induction keys with
  | nil => cases h
  | cons key keys ih =>
    rw [firstOf] at h
    cases hvalue : (values equalsSign (ascii key) lines)[0]? with
    | none => exact ih (by simpa [hvalue] using h)
    | some v =>
      rw [hvalue] at h
      obtain rfl := Option.some.inj h
      have hle := List.length_take_le (limit - 1) v
      omega

/-- A value holds no byte that the lines do not hold. -/
theorem notMem_firstOf {b : UInt8} {lines : List (List UInt8)} {limit : ℕ} {keys : List String}
    (hlines : ∀ line ∈ lines, b ∉ line) : b ∉ (firstOf lines limit keys).getD [] := by
  induction keys with
  | nil => exact List.not_mem_nil
  | cons key keys ih =>
    rw [firstOf]
    cases hvalue : (values equalsSign (ascii key) lines)[0]? with
    | none => exact ih
    | some value =>
      intro hb
      obtain ⟨line, hline, hin⟩ := List.mem_filterMap.1 (List.mem_of_getElem? hvalue)
      rw [valueIn, Option.ite_none_right_eq_some] at hin
      obtain ⟨-, hdrop⟩ := hin
      have hb : b ∈ value := List.mem_of_mem_take hb
      rw [← Option.some.inj hdrop] at hb
      exact hlines line hline (List.mem_of_mem_drop hb)

/-- A command line fits its buffer. -/
theorem length_commandLine_lt (entry : List (List UInt8)) :
    (commandLine entry).length < cmdlineMax := by
  rw [commandLine]
  cases hvalue : firstOf entry cmdlineMax ["KERNEL_CMDLINE", "CMDLINE"] with
  | none => decide
  | some value => exact length_firstOf_lt (by decide) hvalue

/-- `autoboot` leaves the chosen entry, with its command line in the buffer. -/
theorem autoboot_spec {selected : ℕ} (hs : StringAt c.mem c.configAddr text)
    (hfuel : text.length < fuel)
    (hbuf : cmdline + cmdlineMax ≤ c.configAddr ∨ c.configAddr + text.length < cmdline)
    (hsize : selected < 2 ^ 32) (hentry : (entriesOf text)[selected]? = some entry) :
    ∃ c', autoboot c fuel cmdline selected = some c' ∧ Booted c' fuel cmdline entry ∧
      StringAt c'.mem cmdline (commandLine entry) := by
  have hset := configSetEntry_spec hs hfuel selected
  rw [hentry] at hset
  obtain ⟨c', chosen, ends, hset, htext, hlo, hhi, hlines, hends⟩ := hset
  have hbooted : Booted c' fuel cmdline entry :=
    ⟨chosen, ends, htext, by omega, hlines, hends, by omega⟩
  have hselected : ((selected : ℤ) % 2 ^ 32).toNat = selected := by omega
  have hcmdline := length_commandLine_lt entry
  have hnul : 0 ∉ commandLine entry := by
    apply notMem_firstOf
    intro line hline hb
    have hmem : line ∈ linesOf chosen := hlines ▸ List.mem_append_left _ hline
    have hin := @mem_intercalate _ separator _ _ _ hmem hb
    rw [linesOf, List.intercalate_splitOn] at hin
    exact htext.notMem hin
  refine ⟨{ c' with mem := storeBytes c'.mem cmdline (commandLine entry ++ [0]) }, ?_,
    hbooted.sameOutside ?_, stringAt_storeBytes _ _ hnul⟩
  · rw [autoboot, hselected, hset, Option.bind_some]
    exact congrArg (Option.map _) (hbooted.firstValue (by decide) (by decide))
  · intro x hx
    refine storeBytes_of_outside _ _ _ _ ?_
    rw [List.length_append, List.length_singleton]
    omega

end Booting

/-! ## The selection -/

/-- How far a key moves the selection. -/
def keyShift (key : ℤ) : ℤ :=
  if key = getcharCursorUp then -1 else if key = getcharCursorDown then 1 else 0

/-- How far some keys move it together. -/
def totalShift (keys : List ℕ) : ℤ := (keys.map fun key => keyShift (getcharInternal key)).sum

/-- Keys that neither boot an entry nor edit its command line. -/
def Moves (keys : List ℕ) : Prop :=
  ∀ key ∈ keys, getcharInternal key ≠ 0x0D ∧ getcharInternal key ≠ 0x65

instance : DecidablePred Moves := fun keys =>
  inferInstanceAs (Decidable (∀ key ∈ keys, _ ∧ _))

section Selection

variable {c : Config} {fuel cmdline n selected enter rounds : ℕ} {moves rest keys : List ℕ}

/-- The selection goes around. -/
theorem moveSelection_eq (h : selected < n) (key : ℤ) :
    moveSelection n selected key = (selected + keyShift key) % n := by
  have hpos : (0 : ℤ) < n := by omega
  unfold moveSelection keyShift
  split
  · split
    · have hwrap : (selected : ℤ) + -1 = n - 1 - n := by omega
      rw [hwrap, Int.sub_emod_right, Int.emod_eq_of_lt (by omega) (by omega)]
    · rw [← Int.sub_eq_add_neg, Int.emod_eq_of_lt (by omega) (by omega)]
  · split
    · split
      · next hlast => rw [hlast, Int.emod_self]
      · rw [Int.emod_eq_of_lt (by omega) (by omega)]
    · rw [Int.add_zero, Int.emod_eq_of_lt (by omega) (by omega)]

/-- The keys before Enter move the selection by what they come to together. -/
theorem menuKeys_moves (h : selected < n) (hmoves : Moves moves) (keys : List ℕ) :
    menuKeys c fuel cmdline n selected (moves ++ keys) =
      menuKeys c fuel cmdline n ((selected + totalShift moves) % n) keys := by
  induction moves generalizing selected with
  | nil =>
    have hsame : ((selected : ℤ) + totalShift []) % n = selected := by
      rw [totalShift, List.map_nil, List.sum_nil, Int.add_zero,
        Int.emod_eq_of_lt (by omega) (by omega)]
    rw [hsame, List.nil_append]
  | cons key moves ih =>
    obtain ⟨⟨hnot, hedit⟩, hlater⟩ := List.forall_mem_cons.1 hmoves
    have hnonneg : 0 ≤ ((selected : ℤ) + keyShift (getcharInternal key)) % n :=
      Int.emod_nonneg _ (by omega)
    have hlt : ((selected : ℤ) + keyShift (getcharInternal key)) % n < n :=
      Int.emod_lt_of_pos _ (by omega)
    obtain ⟨next, hnext⟩ := Int.eq_ofNat_of_zero_le hnonneg
    rw [List.cons_append, menuKeys, if_neg hnot, if_neg hedit, moveSelection_eq h, hnext,
      ih (by omega) hlater, ← hnext, Int.emod_add_emod, totalShift, totalShift, List.map_cons,
      List.sum_cons, Int.add_assoc]

/-- A countdown that is stopped has dropped keys with the code 0 only. -/
theorem countdown_append (henter : getcharInternal enter ≠ 0)
    (h : countdown rounds (moves ++ enter :: rest) = some keys) :
    ∃ dropped moves', moves = dropped ++ moves' ∧ keys = moves' ++ enter :: rest ∧
      ∀ key ∈ dropped, getcharInternal key = 0 := by
  induction rounds generalizing moves with
  | zero => cases h
  | succ rounds ih =>
    cases moves with
    | nil =>
      rw [List.nil_append, countdown, if_neg henter] at h
      exact ⟨[], [], rfl, (Option.some.inj h).symm, by simp⟩
    | cons key moves =>
      rw [List.cons_append, countdown] at h
      by_cases hzero : getcharInternal key = 0
      · rw [if_pos hzero] at h
        obtain ⟨dropped, moves', rfl, hkeys, hdropped⟩ := ih h
        exact ⟨key :: dropped, moves', rfl, hkeys, List.forall_mem_cons.2 ⟨hzero, hdropped⟩⟩
      · rw [if_neg hzero] at h
        exact ⟨[], key :: moves, rfl, (Option.some.inj h).symm, by simp⟩

/-- Keys with the code 0 move nothing. -/
theorem totalShift_dropped {dropped : List ℕ} (h : ∀ key ∈ dropped, getcharInternal key = 0)
    (moves : List ℕ) : totalShift (dropped ++ moves) = totalShift moves := by
  induction dropped with
  | nil => rfl
  | cons key dropped ih =>
    obtain ⟨hkey, hlater⟩ := List.forall_mem_cons.1 h
    have hnext := ih hlater
    rw [totalShift] at hnext ⊢
    rw [List.cons_append, List.map_cons, List.sum_cons, hkey, hnext]
    exact Int.zero_add _

end Selection

/-! ## What the menu boots -/

/-- `selected_entry` before the first key. -/
def defaultEntry (text : List UInt8) : ℤ :=
  configInt (firstOf (linesOf text) 16 ["DEFAULT_ENTRY"]) 0

/-- `timeout`. -/
def menuTimeout (text : List UInt8) : ℤ := configInt (firstOf (linesOf text) 16 ["TIMEOUT"]) 5

/-- The entry that is booted: the default one where the countdown runs out, and otherwise the one
the keys before Enter lead to. -/
def bootIndex (text : List UInt8) (moves keys : List ℕ) : ℕ :=
  match countdown (menuTimeout text % 2 ^ 32).toNat keys with
  | none => (defaultEntry text).toNat
  | some _ => ((defaultEntry text + totalShift moves) % (entriesOf text).length).toNat

/-- A key stops the countdown before it runs out. -/
def Stops (text : List UInt8) (keys : List ℕ) : Prop :=
  (countdown (menuTimeout text % 2 ^ 32).toNat keys).isSome

instance (text : List UInt8) (keys : List ℕ) : Decidable (Stops text keys) :=
  inferInstanceAs (Decidable (_ = true))

section Menu

variable {c : Config} {fuel cmdline key : ℕ} {text : List UInt8} {moves : List ℕ}

/-- Where the default entry is there, an entry is booted. -/
theorem bootIndex_lt (hdefault : 0 ≤ defaultEntry text)
    (hrange : defaultEntry text < (entriesOf text).length) (moves keys : List ℕ) :
    bootIndex text moves keys < (entriesOf text).length := by
  rw [bootIndex]
  split
  · omega
  · have hlt := Int.emod_lt_of_pos (defaultEntry text + totalShift moves)
      (show 0 < ((entriesOf text).length : ℤ) by omega)
    omega

/-- The menu starts from the default entry. Without a timeout no round of the countdown is left. -/
theorem menu_eq (hs : StringAt c.mem c.configAddr text) (hfuel : text.length < fuel)
    (hentries : 0 < (entriesOf text).length) (keys : List ℕ) :
    menu c fuel cmdline keys =
      match countdown (menuTimeout text % 2 ^ 32).toNat keys with
      | none => (autoboot c fuel cmdline (defaultEntry text)).map .boot
      | some keys => menuKeys c fuel cmdline (entriesOf text).length (defaultEntry text) keys := by
  have hcount := length_entriesOf_le text
  have hnames := menuNames_spec hs hfuel (Nat.zero_le _)
    (show (entriesOf text).length < fuel + 0 by omega)
  have hselected := configGetValue_eq_firstOf hs hfuel (show 0 < 16 by decide)
    (show IsKey "DEFAULT_ENTRY" by decide)
  have htimeout := configGetValue_eq_firstOf hs hfuel (show 0 < 16 by decide)
    (show IsKey "TIMEOUT" by decide)
  have hmenu : menu c fuel cmdline keys =
      if menuTimeout text = 0 then (autoboot c fuel cmdline (defaultEntry text)).map .boot
      else
        match countdown (menuTimeout text % 2 ^ 32).toNat keys with
        | none => (autoboot c fuel cmdline (defaultEntry text)).map .boot
        | some keys =>
          menuKeys c fuel cmdline (entriesOf text).length (defaultEntry text) keys := by
    simp only [menu, hselected, htimeout, hnames, Option.bind_eq_bind, Option.bind_some,
      List.drop_zero, List.length_map, if_neg (Nat.ne_of_gt hentries)]
    rfl
  rw [hmenu]
  by_cases hzero : menuTimeout text = 0
  · rw [if_pos hzero, hzero]
    rfl
  · rw [if_neg hzero]

/-- Where the countdown runs out, the default entry is booted. -/
theorem menu_of_runs_out (hs : StringAt c.mem c.configAddr text) (hfuel : text.length < fuel)
    (hdefault : 0 ≤ defaultEntry text) (hrange : defaultEntry text < (entriesOf text).length)
    {keys : List ℕ} (hnever : ¬ Stops text keys) (moves : List ℕ) :
    menu c fuel cmdline keys =
      (autoboot c fuel cmdline (bootIndex text moves keys)).map .boot := by
  have hnone : countdown (menuTimeout text % 2 ^ 32).toNat keys = none :=
    Option.not_isSome_iff_eq_none.1 hnever
  rw [menu_eq hs hfuel (by omega), bootIndex, hnone, Int.toNat_of_nonneg hdefault]

/-- The key behind the moves is looked at with the entry the moves lead to. -/
theorem menu_of_stops (hs : StringAt c.mem c.configAddr text) (hfuel : text.length < fuel)
    (hdefault : 0 ≤ defaultEntry text) (hrange : defaultEntry text < (entriesOf text).length)
    (hmoves : Moves moves) (hkey : getcharInternal key ≠ 0) {rest : List ℕ}
    (hstop : Stops text (moves ++ key :: rest)) :
    menu c fuel cmdline (moves ++ key :: rest) =
      menuKeys c fuel cmdline (entriesOf text).length
        (bootIndex text moves (moves ++ key :: rest)) (key :: rest) := by
  obtain ⟨keys, hkeys⟩ := Option.isSome_iff_exists.1 hstop
  obtain ⟨first, hfirst⟩ := Int.eq_ofNat_of_zero_le hdefault
  rw [menu_eq hs hfuel (by omega), bootIndex, hkeys]
  obtain ⟨dropped, moves', rfl, rfl, hdropped⟩ := countdown_append hkey hkeys
  have hmoves' : Moves moves' := fun key hkey => hmoves key (List.mem_append_right _ hkey)
  have hnonneg := Int.emod_nonneg ((first : ℤ) + totalShift moves')
    (show ((entriesOf text).length : ℤ) ≠ 0 by omega)
  simp only [hfirst, totalShift_dropped hdropped]
  rw [menuKeys_moves (by omega) hmoves', Int.toNat_of_nonneg hnonneg]

/-- Where the default entry is there, what the menu comes to is an entry, and `autoboot` leaves
it. -/
theorem autoboot_bootIndex (hs : StringAt c.mem c.configAddr text) (hfuel : text.length < fuel)
    (hsize : text.length < 2 ^ 32)
    (hbuf : cmdline + cmdlineMax ≤ c.configAddr ∨ c.configAddr + text.length < cmdline)
    (hdefault : 0 ≤ defaultEntry text) (hrange : defaultEntry text < (entriesOf text).length)
    (moves keys : List ℕ) :
    ∃ entry c', (entriesOf text)[bootIndex text moves keys]? = some entry ∧
      autoboot c fuel cmdline (bootIndex text moves keys) = some c' ∧
      Booted c' fuel cmdline entry ∧ StringAt c'.mem cmdline (commandLine entry) := by
  have hindex := bootIndex_lt hdefault hrange moves keys
  have hcount := length_entriesOf_le text
  have hentry := List.getElem?_eq_getElem hindex
  exact ⟨_, (autoboot_spec hs hfuel hbuf (by omega) hentry).imp fun _ h => ⟨hentry, h⟩⟩

/-- For every text, every buffer beside it and all keys that let the countdown run out or move the
selection up to Enter: where the default entry is there, the menu boots the entry that the keys lead
to, going around at both ends, and the command line, the protocol and all keys that are looked up
afterwards come from the lines of that entry. -/
theorem menu_boots (hs : StringAt c.mem c.configAddr text) (hfuel : text.length < fuel)
    (hsize : text.length < 2 ^ 32)
    (hbuf : cmdline + cmdlineMax ≤ c.configAddr ∨ c.configAddr + text.length < cmdline)
    (hdefault : 0 ≤ defaultEntry text) (hrange : defaultEntry text < (entriesOf text).length)
    {keys : List ℕ} (hkeys : Stops text keys → Moves moves ∧
      ∃ enter rest, getcharInternal enter = 0x0D ∧ keys = moves ++ enter :: rest) :
    ∃ entry c', (entriesOf text)[bootIndex text moves keys]? = some entry ∧
      menu c fuel cmdline keys = some (.boot c') ∧
      StringAt c'.mem cmdline (commandLine entry) ∧
      chooseProtocol c' fuel =
        some (protocolOf (firstOf entry 32 ["KERNEL_PROTO", "PROTOCOL"])) ∧
      ∀ (i limit : ℕ) (key : List UInt8), 0 < limit → 0 ∉ key → separator ∉ key →
        configGetValue c' fuel i limit key =
          some (((values equalsSign key entry)[i]?).map (·.take (limit - 1))) := by
  obtain ⟨entry, c', hentry, hrun, hbooted, hcmdline⟩ := autoboot_bootIndex hs hfuel hsize hbuf
    hdefault hrange moves keys
  refine ⟨entry, c', hentry, ?_, hcmdline, ?_, fun i limit key hpos hnul hsep =>
    hbooted.values hpos hnul hsep i⟩
  · by_cases hstop : Stops text keys
    · obtain ⟨hmoves, enter, rest, henter, rfl⟩ := hkeys hstop
      rw [menu_of_stops hs hfuel hdefault hrange hmoves (by rw [henter]; decide) hstop, menuKeys,
        if_pos henter, hrun, Option.map_some]
    · rw [menu_of_runs_out hs hfuel hdefault hrange hstop moves, hrun, Option.map_some]
  · rw [chooseProtocol, hbooted.firstValue (by decide) (by decide), Option.map_some]

end Menu

/-- Two entries for the menu. -/
def twoEntries : Configuration where
  globals := [ascii "TIMEOUT=5"]
  plain := by decide
  unmarked := by decide
  entries := [
    { name := ascii "OrionisOS"
      lines := [ascii "PROTOCOL=stivale", ascii "KERNEL_CMDLINE=one"]
      plain := by decide
      unmarked := by decide },
    { name := ascii "Other"
      lines := [ascii "PROTOCOL=linux", ascii "CMDLINE=two"]
      plain := by decide
      unmarked := by decide }]

/-- The text of the file. -/
def twoEntriesText : List UInt8 := [separator].intercalate twoEntries.lines

/-- Its entries, as their lines. -/
theorem entriesOf_twoEntriesText :
    entriesOf twoEntriesText = [[ascii "OrionisOS", ascii "PROTOCOL=stivale",
      ascii "KERNEL_CMDLINE=one"], [ascii "Other", ascii "PROTOCOL=linux", ascii "CMDLINE=two"]] :=
  (entriesOf_write twoEntries).trans rfl

/-- The first of them is the default. -/
theorem defaultEntry_twoEntriesText : defaultEntry twoEntriesText = 0 := by decide +kernel

/-- The file is short. -/
theorem length_twoEntriesText_lt : twoEntriesText.length < 200 := by decide +kernel

/-- The default entry is there. -/
theorem defaultEntry_lt_twoEntriesText :
    defaultEntry twoEntriesText < (entriesOf twoEntriesText).length := by
  rw [defaultEntry_twoEntriesText, entriesOf_twoEntriesText]
  decide

/-- One key up from the first entry leads to the last one. -/
theorem bootIndex_twoEntriesText {keys : List ℕ} (h : Stops twoEntriesText keys) :
    bootIndex twoEntriesText [0x4800] keys = 1 := by
  obtain ⟨left, hleft⟩ := Option.isSome_iff_exists.1 h
  have hshift : totalShift [0x4800] = -1 := by decide +kernel
  rw [bootIndex, hleft, defaultEntry_twoEntriesText, entriesOf_twoEntriesText]
  simp [hshift]

/-- The file in front of the buffer of the command line. -/
theorem twoEntries_ready :
    StringAt (twoEntries.loaded true (fun _ => 0xCC) 0x1000).mem 0x1000 twoEntriesText ∧
      twoEntriesText.length < 2 ^ 32 ∧ 0x1000 + twoEntriesText.length < 0x8000 := by
  have hshort := length_twoEntriesText_lt
  exact ⟨twoEntries.loaded_stringAt true (fun _ => 0xCC) 0x1000,
    Nat.lt_trans hshort (by decide),
    Nat.lt_trans (Nat.add_lt_add_left hshort 0x1000) (by decide)⟩

/-- From the first entry the cursor moves up to the last one. -/
theorem menu_boots_last :
    StringAt (twoEntries.loaded true (fun _ => 0xCC) 0x1000).mem 0x1000 twoEntriesText ∧
      Moves [0x4800] ∧
      ∃ c, menu (twoEntries.loaded true (fun _ => 0xCC) 0x1000) 200 0x8000 [0x4800, 0x1C0D] =
          some (.boot c) ∧
        StringAt c.mem 0x8000 (ascii "two") ∧ chooseProtocol c 200 = some (.ok .linux) := by
  obtain ⟨htext, hsize, hapart⟩ := twoEntries_ready
  have hmoves : Moves [0x4800] := by decide +kernel
  have henter : getcharInternal 0x1C0D = 0x0D := by decide +kernel
  have hdefault : 0 ≤ defaultEntry twoEntriesText := defaultEntry_twoEntriesText.ge
  obtain ⟨entry, c, hentry, hmenu, hcmdline, hproto, -⟩ :=
    @menu_boots _ _ 0x8000 _ [0x4800] htext length_twoEntriesText_lt hsize (Or.inr hapart) hdefault
      defaultEntry_lt_twoEntriesText [0x4800, 0x1C0D] fun _ => ⟨hmoves, 0x1C0D, [], henter, rfl⟩
  rw [bootIndex_twoEntriesText (by decide +kernel), entriesOf_twoEntriesText] at hentry
  obtain rfl := Option.some.inj hentry
  refine ⟨htext, hmoves, c, hmenu, ?_, ?_⟩
  · rwa [show commandLine [ascii "Other", ascii "PROTOCOL=linux", ascii "CMDLINE=two"] =
      ascii "two" by decide +kernel] at hcmdline
  · rw [hproto, show firstOf [ascii "Other", ascii "PROTOCOL=linux", ascii "CMDLINE=two"] 32
      ["KERNEL_PROTO", "PROTOCOL"] = some (ascii "linux") by decide +kernel, protocolOf,
      if_neg (by decide +kernel), if_neg (by decide +kernel), if_pos rfl]

/-! ## The edited command line -/

section Editing

variable {c : Config} {fuel cmdline edit : ℕ} {text : List UInt8} {moves typed : List ℕ}

/-- The edit key writes the command line of the entry into the buffer and edits it there. -/
theorem menuKeys_edit {selected : ℤ} {entry : List (List UInt8)} {c' : Config}
    (hrun : autoboot c fuel cmdline selected = some c') (hbooted : Booted c' fuel cmdline entry)
    (hcmdline : StringAt c'.mem cmdline (commandLine entry)) (hedit : getcharInternal edit = 0x65)
    (htyped : ∀ key ∈ typed, UInt8.ofInt (getcharInternal key) ≠ 0) (maxEntries : ℤ) :
    match (⟨(commandLine entry).reverse, []⟩ : EditLine).enter cmdlineMax typed with
    | none => menuKeys c fuel cmdline maxEntries selected (edit :: typed) = some .waiting
    | some (line, _) => ∃ c'',
        menuKeys c fuel cmdline maxEntries selected (edit :: typed) = some (.boot c'') ∧
        Booted c'' fuel cmdline entry ∧ StringAt c''.mem cmdline line := by
  obtain ⟨start, hgets, hholds, hstart⟩ :=
    gets_start hcmdline (length_commandLine_lt entry) typed
  have hloop := getsLoop_spec hholds htyped
  have hkeys : menuKeys c fuel cmdline maxEntries selected (edit :: typed) =
      (getsLoop cmdline cmdlineMax start typed).map fun line =>
        match line with
        | none => .waiting
        | some (m, _) => .boot { c' with mem := m } := by
    rw [menuKeys, if_neg (by rw [hedit]; decide), if_pos hedit, hrun, Option.bind_some, hgets]
  rw [hkeys]
  cases hline : (⟨(commandLine entry).reverse, []⟩ : EditLine).enter cmdlineMax typed with
  | none =>
    rw [hline] at hloop
    rw [hloop]
    rfl
  | some result =>
    rw [hline] at hloop
    obtain ⟨m, hdone, htext, -, hsame⟩ := hloop
    refine ⟨{ c' with mem := m }, ?_, hbooted.sameOutside fun x hx => ?_, htext⟩
    · rw [hdone]
      rfl
    · exact (hsame x hx).trans (hstart x hx)

/-- For every sequence of keys up to the edit key and every sequence without the code 0 behind it:
where the countdown is stopped, the menu waits until Enter and then boots the entry the keys lead
to with its command line as it was edited, and everything else as the lines of that entry have
it. -/
theorem menu_edits (hs : StringAt c.mem c.configAddr text) (hfuel : text.length < fuel)
    (hsize : text.length < 2 ^ 32)
    (hbuf : cmdline + cmdlineMax ≤ c.configAddr ∨ c.configAddr + text.length < cmdline)
    (hdefault : 0 ≤ defaultEntry text) (hrange : defaultEntry text < (entriesOf text).length)
    (hmoves : Moves moves) (hedit : getcharInternal edit = 0x65)
    (hstop : Stops text (moves ++ edit :: typed))
    (htyped : ∀ key ∈ typed, UInt8.ofInt (getcharInternal key) ≠ 0) :
    ∃ entry, (entriesOf text)[bootIndex text moves (moves ++ edit :: typed)]? = some entry ∧
      match (⟨(commandLine entry).reverse, []⟩ : EditLine).enter cmdlineMax typed with
      | none => menu c fuel cmdline (moves ++ edit :: typed) = some .waiting
      | some (line, _) => ∃ c', menu c fuel cmdline (moves ++ edit :: typed) = some (.boot c') ∧
          StringAt c'.mem cmdline line ∧
          chooseProtocol c' fuel =
            some (protocolOf (firstOf entry 32 ["KERNEL_PROTO", "PROTOCOL"])) ∧
          ∀ (i limit : ℕ) (key : List UInt8), 0 < limit → 0 ∉ key → separator ∉ key →
            configGetValue c' fuel i limit key =
              some (((values equalsSign key entry)[i]?).map (·.take (limit - 1))) := by
  obtain ⟨entry, c', hentry, hrun, hbooted, hcmdline⟩ := autoboot_bootIndex hs hfuel hsize hbuf
    hdefault hrange moves (moves ++ edit :: typed)
  refine ⟨entry, hentry, ?_⟩
  have hkeys := menuKeys_edit hrun hbooted hcmdline hedit htyped (entriesOf text).length
  rw [menu_of_stops hs hfuel hdefault hrange hmoves (by rw [hedit]; decide) hstop]
  cases hline : (⟨(commandLine entry).reverse, []⟩ : EditLine).enter cmdlineMax typed with
  | none => simpa only [hline] using hkeys
  | some result =>
    rw [hline] at hkeys
    obtain ⟨c'', hdone, hbooted', htext⟩ := hkeys
    refine ⟨c'', hdone, htext, ?_, fun i limit key hpos hnul hsep =>
      hbooted'.values hpos hnul hsep i⟩
    rw [chooseProtocol, hbooted'.firstValue (by decide) (by decide), Option.map_some]

end Editing

/-- The last character of the command line of the last entry is typed anew. -/
theorem menu_edits_last :
    Stops twoEntriesText [0x4800, 0x1265, 0x0E08, 0x2D78, 0x1C0D] ∧
      ∃ c, menu (twoEntries.loaded true (fun _ => 0xCC) 0x1000) 200 0x8000
          [0x4800, 0x1265, 0x0E08, 0x2D78, 0x1C0D] = some (.boot c) ∧
        StringAt c.mem 0x8000 (ascii "twx") := by
  obtain ⟨htext, hsize, hapart⟩ := twoEntries_ready
  have hmoves : Moves [0x4800] := by decide +kernel
  have hedit : getcharInternal 0x1265 = 0x65 := by decide +kernel
  have hstop : Stops twoEntriesText ([0x4800] ++ 0x1265 :: [0x0E08, 0x2D78, 0x1C0D]) := by
    decide +kernel
  have htyped : ∀ key ∈ [0x0E08, 0x2D78, 0x1C0D], UInt8.ofInt (getcharInternal key) ≠ 0 := by
    decide +kernel
  have hdefault : 0 ≤ defaultEntry twoEntriesText := defaultEntry_twoEntriesText.ge
  obtain ⟨entry, hentry, hmenu⟩ := menu_edits htext length_twoEntriesText_lt hsize
    (Or.inr hapart) hdefault defaultEntry_lt_twoEntriesText hmoves hedit hstop htyped
  rw [bootIndex_twoEntriesText hstop, entriesOf_twoEntriesText] at hentry
  obtain rfl := Option.some.inj hentry
  rw [show commandLine [ascii "Other", ascii "PROTOCOL=linux", ascii "CMDLINE=two"] = ascii "two" by
      decide +kernel,
    show (⟨(ascii "two").reverse, []⟩ : EditLine).enter cmdlineMax [0x0E08, 0x2D78, 0x1C0D] =
      some (ascii "twx", []) by decide +kernel] at hmenu
  obtain ⟨c, hrun, hline, -⟩ := hmenu
  exact ⟨hstop, c, hrun, hline⟩

end Orionis.Limine
