import Orionis.Shell.Command

/-!
# What a command reads

Run on a string and its NUL alone, `execute_command` succeeds for every string but
`echo`: there `cmd_echo` starts behind the NUL. In the command buffer, whose last byte is
always NUL, it succeeds for that string too.
-/

namespace Orionis.Shell

open Orionis.Foundations

variable {text s2 : List UInt8} {i : ℕ}

/-! ## Comparisons with a literal -/

/-- Comparing a string with bytes of which only the last may be NUL. -/
theorem compareFrom_ofString (hs2 : 0 ∉ s2.dropLast) (hi : i ≤ text.length) :
    ∃ r, compareFrom (View.ofString text) i s2 = some r ∧
      (r = 0 ↔ s2 <+: (text ++ [0]).drop i) := by
  induction s2 generalizing i with
  | nil => exact ⟨0, rfl, by simp⟩
  | cons c2 rest ih =>
    have hlt : i < (text ++ [0]).length := by
      rw [List.length_append]
      exact Nat.lt_succ_of_le hi
    rw [compareFrom, View.ofString, List.getElem?_eq_getElem hlt,
      List.drop_eq_getElem_cons hlt, List.cons_prefix_cons]
    by_cases hc : (text ++ [0])[i] = c2
    · by_cases hz : c2 = 0
      · have hrest : rest = [] := by
          by_contra hne
          apply hs2
          simp [List.dropLast_cons_of_ne_nil hne, hz]
        exact ⟨0, by simp [hc, hz], by simp [hc, hrest]⟩
      · have hilt : i < text.length := by
          by_contra hge
          have hieq : i = text.length := by omega
          apply hz
          rw [← hc]
          simp [hieq]
        have hs2' : 0 ∉ rest.dropLast := by
          intro hmem
          apply hs2
          cases rest with
          | nil => exact absurd hmem List.not_mem_nil
          | cons d rest => exact List.mem_cons_of_mem _ hmem
        obtain ⟨r, hr, hiff⟩ := ih hs2' hilt
        exact ⟨r, by simpa [hc, hz] using hr, by rw [hiff]; simp [hc]⟩
    · refine ⟨if (text ++ [0])[i].toInt8 < c2.toInt8 then -1 else 1, by simp [hc], ?_⟩
      constructor
      · intro h
        split at h <;> omega
      · intro h
        exact absurd h.1.symm hc

/-- `strcmp` finds a literal exactly where it is the whole string. -/
theorem strcmp_ofString (s2 : List UInt8) (hnul : 0 ∉ text) (hs2 : 0 ∉ s2) :
    ∃ r, strcmp (View.ofString text) s2 = some r ∧ (r = 0 ↔ text = s2) := by
  have hlast : 0 ∉ (s2 ++ [0]).dropLast := by rwa [List.dropLast_concat]
  obtain ⟨r, hr, hiff⟩ := compareFrom_ofString hlast (Nat.zero_le _)
  refine ⟨r, hr, hiff.trans ?_⟩
  rw [List.drop_zero, List.prefix_concat_iff]
  constructor
  · intro h
    cases h with
    | inl heq => exact (List.append_cancel_right heq).symm
    | inr hpre => exact absurd (hpre.subset (by simp)) hnul
  · intro heq
    subst heq
    exact Or.inl rfl

/-- The search for the command ends within the string. -/
theorem exists_matchName (names : List (String × Builtin)) (hnul : 0 ∉ text)
    (hnames : ∀ entry ∈ names, 0 ∉ ascii entry.1) :
    ∃ b, matchName (View.ofString text) names = some b := by
  induction names with
  | nil => exact ⟨none, rfl⟩
  | cons entry rest ih =>
    obtain ⟨r, hr, -⟩ := strcmp_ofString _ hnul (hnames entry List.mem_cons_self)
    obtain ⟨b, hb⟩ := ih fun e he => hnames e (List.mem_cons_of_mem _ he)
    by_cases hz : r = 0
    · exact ⟨some entry.2, by simp [matchName, hr, hz]⟩
    · exact ⟨b, by simp [matchName, hr, hz, hb]⟩

/-- The test for `echo` takes the lines that are `echo` or begin with `echo` and a space. -/
theorem isEcho_ofString (hnul : 0 ∉ text) :
    isEcho (View.ofString text) =
      some (decide (text = ascii "echo" ∨ ascii "echo " <+: text)) := by
  have hlast : 0 ∉ (ascii "echo").dropLast := by decide
  obtain ⟨r, hr, hiff⟩ := compareFrom_ofString hlast (Nat.zero_le _)
  have hcmp : strncmp (View.ofString text) (ascii "echo") 4 = some r := hr
  have hzero : r = 0 ↔ ascii "echo" <+: text := by
    rw [hiff, List.drop_zero, List.prefix_concat_iff]
    apply or_iff_right
    intro heq
    exact absurd (heq ▸ List.mem_concat_self) (by decide : (0 : UInt8) ∉ ascii "echo")
  rw [isEcho, hcmp, Option.bind_eq_bind, Option.bind_some]
  by_cases hz : r = 0
  · rw [if_pos hz]
    obtain ⟨tail, rfl⟩ := hzero.1 hz
    cases tail with
    | nil => rfl
    | cons c tail =>
      have hc : c ≠ 0 := fun h => hnul (by simp [h])
      have hread : View.ofString (ascii "echo" ++ c :: tail) 4 = some c := rfl
      have hspace : ascii "echo " <+: ascii "echo" ++ c :: tail ↔ c = 32 := by
        have hsplit : ascii "echo " = ascii "echo" ++ [32] := rfl
        rw [hsplit, List.prefix_append_right_inj, List.cons_prefix_cons]
        simp [eq_comm]
      rw [hread]
      simp [hspace, hc]
  · rw [if_neg hz]
    have hno : ¬(text = ascii "echo" ∨ ascii "echo " <+: text) := by
      intro h
      apply hz
      rw [hzero]
      cases h with
      | inl heq => exact heq ▸ List.prefix_rfl
      | inr hpre => exact (List.prefix_append (ascii "echo") [32]).trans hpre
    simp [hno]

/-! ## Printing the rest of the line -/

/-- Skipping the spaces of a string. -/
theorem skipSpaces_ofString (fuel : ℕ) (hi : i ≤ text.length) (hfuel : text.length < fuel + i) :
    ∃ k, skipSpaces (View.ofString text) fuel i = some k ∧ k ≤ text.length ∧ i ≤ k ∧
      text.drop k = (text.drop i).dropWhile (· == 32) := by
  induction fuel generalizing i with
  | zero => omega
  | succ fuel ih =>
    rw [skipSpaces]
    cases Nat.lt_or_eq_of_le hi with
    | inl hlt =>
      rw [View.ofString_lt hlt, List.drop_eq_getElem_cons hlt]
      by_cases hc : text[i] = 32
      · obtain ⟨k, hk, hle, hik, hdrop⟩ := ih (i := i + 1) hlt (by omega)
        exact ⟨k, by simpa [hc] using hk, hle, by omega, by simpa [hc] using hdrop⟩
      · refine ⟨i, by simp [hc], hi, le_rfl, ?_⟩
        rw [List.dropWhile_cons_of_neg (by simpa using hc), ← List.drop_eq_getElem_cons hlt]
    | inr heq =>
      subst heq
      exact ⟨text.length, by simp, le_rfl, le_rfl, by simp⟩

/-- `cmd_echo` prints what follows the spaces, and a newline. -/
theorem cmdEcho_ofString (hnul : 0 ∉ text) (hlen : text.length < cmdBufferSize)
    (hecho : ascii "echo " <+: text) :
    cmdEcho (View.ofString text) = some
      (ttyPrint ((text.drop 5).dropWhile (· == 32)) 0xFFFFFF ++
        ttyPrint (ascii "\n") 0xFFFFFF) := by
  have hfive : 5 ≤ text.length := hecho.length_le
  obtain ⟨k, hk, hle, -, hdrop⟩ :=
    skipSpaces_ofString cmdBufferSize hfive (by omega)
  rw [cmdEcho, hk, ← hdrop]
  cases Nat.lt_or_eq_of_le hle with
  | inl hlt =>
    have hc : text[k] ≠ 0 := fun h => hnul (h ▸ List.getElem_mem hlt)
    have hread := readString_ofString cmdBufferSize hnul hle (by omega)
    simp [View.ofString_lt hlt, hc, hread]
  | inr heq =>
    subst heq
    simp [ttyPrint]

/-! ## Whole commands -/

/-- Any line but `echo` itself is dispatched within its own bytes. -/
theorem exists_dispatch (hnul : 0 ∉ text) (hlen : text.length < cmdBufferSize)
    (hne : text ≠ ascii "echo") : ∃ out, dispatch (View.ofString text) = some out := by
  obtain ⟨first, hfirst⟩ := exists_matchName namesBeforeEcho hnul (by decide)
  obtain ⟨second, hsecond⟩ := exists_matchName namesAfterEcho hnul (by decide)
  have hread := readString_ofString cmdBufferSize hnul (Nat.zero_le _) hlen
  simp only [dispatch, hfirst, isEcho_ofString hnul, Option.bind_eq_bind, Option.bind_some]
  cases first with
  | some b => exact ⟨_, rfl⟩
  | none =>
    by_cases hecho : ascii "echo " <+: text
    · simp only [hecho, or_true, decide_true, if_true]
      exact ⟨_, cmdEcho_ofString hnul hlen hecho⟩
    · simp only [hecho, hne, or_self, decide_false, hsecond, Option.bind_some]
      cases second with
      | some b => exact ⟨_, rfl⟩
      | none => exact ⟨_, by rw [unknownCommand, hread]; rfl⟩

/-- Behind its first comparisons `execute_command` is the dispatcher. -/
theorem executeCommand_eq (debugMode : Bool) (hnul : 0 ∉ text)
    (hlen : text.length < cmdBufferSize) (hdebug : text ≠ ascii "debug")
    (hundebug : text ≠ ascii "undebug") {v : View} (hv : (View.ofString text).Within v) :
    ∃ dump, executeCommand debugMode v =
      (dispatch v).map fun out => (debugMode, dump ++ out) := by
  obtain ⟨r, hr, hzero⟩ := strcmp_ofString (ascii "debug") hnul (by decide)
  obtain ⟨r', hr', hzero'⟩ := strcmp_ofString (ascii "undebug") hnul (by decide)
  have hread := readString_ofString cmdBufferSize hnul (Nat.zero_le _) hlen
  obtain ⟨dump, hdump⟩ : ∃ dump, debugBlock debugMode (View.ofString text) = some dump := by
    cases debugMode with
    | false => exact ⟨_, rfl⟩
    | true => exact ⟨_, by rw [debugBlock, hread]; rfl⟩
  have hv1 : strcmp v (ascii "debug") = some r := stable_strcmp _ _ v r hv hr
  have hv2 : strcmp v (ascii "undebug") = some r' := stable_strcmp _ _ v r' hv hr'
  have hv3 : debugBlock debugMode v = some dump := stable_debugBlock _ _ v dump hv hdump
  refine ⟨dump, ?_⟩
  simp only [executeCommand, hv1, hv2, hv3, hzero, hzero', hdebug, hundebug, if_false,
    Option.bind_eq_bind, Option.bind_some]
  cases dispatch v <;> rfl

/-- `execute_command` stays within its argument for every line but `echo` itself. -/
theorem executeCommand_ofString_iff (debugMode : Bool) (hnul : 0 ∉ text)
    (hlen : text.length < cmdBufferSize) :
    (∃ out, executeCommand debugMode (View.ofString text) = some out) ↔ text ≠ ascii "echo" := by
  constructor
  · intro hall heq
    obtain ⟨out, hout⟩ := hall
    subst heq
    revert hout
    cases debugMode <;> exact nofun
  · intro hne
    by_cases hdebug : text = ascii "debug"
    · subst hdebug
      exact ⟨_, rfl⟩
    · by_cases hundebug : text = ascii "undebug"
      · subst hundebug
        cases debugMode <;> exact ⟨_, rfl⟩
      · obtain ⟨dump, hdump⟩ :=
          executeCommand_eq debugMode hnul hlen hdebug hundebug fun _ _ h => h
        obtain ⟨out, hout⟩ := exists_dispatch hnul hlen hne
        exact ⟨_, by rw [hdump, hout, Option.map_some]⟩

/-! ## Commands in the buffer -/

section Buffer

variable {buf : Memory} (hlast : buf (cmdBufferSize - 1) = 0)

include hlast

/-- Skipping spaces stops at the last byte at the latest. -/
theorem exists_skipSpaces (fuel : ℕ) (hi : i < cmdBufferSize) (hfuel : cmdBufferSize ≤ fuel + i) :
    ∃ k < cmdBufferSize, skipSpaces (View.firstBytes buf cmdBufferSize) fuel i = some k := by
  induction fuel generalizing i with
  | zero => omega
  | succ fuel ih =>
    have hread : View.firstBytes buf cmdBufferSize i = some (buf i) := if_pos hi
    simp only [skipSpaces, hread, Option.bind_eq_bind, Option.bind_some]
    by_cases hc : buf i = 32
    · have hne : i ≠ cmdBufferSize - 1 := by
        intro heq
        subst heq
        rw [hlast] at hc
        exact absurd hc (by decide)
      rw [if_pos hc]
      exact ih (by omega) (by omega)
    · rw [if_neg hc]
      exact ⟨i, hi, rfl⟩

/-- `cmd_echo` ends within the buffer. -/
theorem exists_cmdEcho : ∃ out, cmdEcho (View.firstBytes buf cmdBufferSize) = some out := by
  obtain ⟨k, hk, hskip⟩ :=
    exists_skipSpaces hlast cmdBufferSize (by decide : 5 < cmdBufferSize) (by omega)
  obtain ⟨text, htext⟩ := exists_readString cmdBufferSize hk hlast (by omega)
  have hread : View.firstBytes buf cmdBufferSize k = some (buf k) := if_pos hk
  simp only [cmdEcho, hskip, hread, htext, Option.bind_eq_bind, Option.bind_some]
  split
  · exact ⟨_, rfl⟩
  · exact ⟨_, rfl⟩

/-- In the command buffer every command runs without a read outside the buffer. -/
theorem exists_executeCommand (debugMode : Bool) :
    ∃ out, executeCommand debugMode (View.firstBytes buf cmdBufferSize) = some out := by
  obtain ⟨text, htext⟩ :=
    exists_readString cmdBufferSize (by decide : 0 < cmdBufferSize) hlast (by omega)
  obtain ⟨-, hnul, hlen⟩ := of_readString htext
  have hv := within_of_readString htext
  by_cases hecho : text = ascii "echo"
  · subst hecho
    obtain ⟨dump, hdump⟩ := executeCommand_eq debugMode hnul hlen (by decide) (by decide) hv
    obtain ⟨out, hout⟩ := exists_cmdEcho hlast
    have hfirst := stable_matchName namesBeforeEcho _ _ none hv rfl
    have hyes := stable_isEcho _ _ true hv rfl
    refine ⟨(debugMode, dump ++ out), ?_⟩
    simp only [hdump, dispatch, hfirst, hyes, hout, Option.bind_eq_bind, Option.bind_some,
      if_true, Option.map_some]
  · obtain ⟨out, hout⟩ := (executeCommand_ofString_iff debugMode hnul hlen).2 hecho
    exact ⟨out, stable_executeCommand debugMode _ _ out hv hout⟩

end Buffer

end Orionis.Shell
