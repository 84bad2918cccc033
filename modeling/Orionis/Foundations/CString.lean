import Mathlib.Data.List.Basic
import Orionis.Foundations.ByteMemory

/-!
# C strings in partly readable memory

A pointer gives access to some of the bytes behind it, and a program that reads another
byte fails. A stable program keeps its result when more bytes become readable. What a
stable program computes from the bytes of a string and its NUL alone is therefore what it
computes wherever that string stands, and it reads no byte behind the NUL.
-/

namespace Orionis.Foundations

/-- The bytes that can be read through a pointer. -/
abbrev View := ℕ → Option UInt8

/-- What is readable in `v` is readable in `w` and the same. -/
def View.Within (v w : View) : Prop := ∀ i c, v i = some c → w i = some c

/-- The first `n` bytes of a memory. -/
def View.firstBytes (m : Memory) (n : ℕ) : View := fun i => if i < n then some (m i) else none

/-- The bytes of a string and its NUL. -/
def View.ofString (text : List UInt8) : View := fun i => (text ++ [0])[i]?

/-- The bytes of a text in ASCII. -/
def ascii (s : String) : List UInt8 := s.toList.map fun c => UInt8.ofNat c.toNat

/-! ## Stable programs -/

section Stable

variable {α β : Type*} {f f' : View → Option α} {g : α → View → Option β} {v w : View} {a : α}

/-- More readable bytes do not change the result. -/
def Stable (f : View → Option α) : Prop := ∀ v w a, v.Within w → f v = some a → f w = some a

/-- A result that reads nothing. -/
theorem stable_const (o : Option α) : Stable fun _ => o := fun _ _ _ _ h => h

/-- Reading one byte. -/
theorem stable_read (i : ℕ) : Stable fun v => v i := fun _ _ _ hvw h => hvw _ _ h

/-- A computation behind another one. -/
theorem Stable.bind (hf : Stable f) (hg : ∀ a, Stable (g a)) :
    Stable fun v => (f v).bind fun a => g a v := by
  intro v w b hvw h
  obtain ⟨a, ha, hb⟩ := Option.bind_eq_some_iff.1 h
  exact Option.bind_eq_some_iff.2 ⟨a, hf v w a hvw ha, hg a v w b hvw hb⟩

/-- A function of a result. -/
theorem Stable.map (hf : Stable f) (g : α → β) : Stable fun v => (f v).map g := by
  intro v w b hvw h
  obtain ⟨a, ha, hb⟩ := Option.map_eq_some_iff.1 h
  exact Option.map_eq_some_iff.2 ⟨a, hf v w a hvw ha, hb⟩

/-- A choice between two computations. -/
theorem Stable.ite {c : Prop} [Decidable c] (hf : Stable f) (hf' : Stable f') :
    Stable fun v => if c then f v else f' v := by
  split
  · exact hf
  · exact hf'

end Stable

/-! ## Reading a string -/

/-- The bytes from `i` to the first NUL, of which at most `fuel` are looked at. -/
def readString (v : View) : (fuel i : ℕ) → Option (List UInt8)
  | 0, _ => none
  | fuel + 1, i =>
    (v i).bind fun c => if c = 0 then some [] else (readString v fuel (i + 1)).map (c :: ·)

variable {v : View} {m : Memory} {fuel i n : ℕ} {text : List UInt8}

/-- Reading a string up to its NUL. -/
theorem stable_readString (fuel i : ℕ) : Stable fun v => readString v fuel i := by
  induction fuel generalizing i with
  | zero => exact stable_const none
  | succ fuel ih =>
    exact (stable_read i).bind fun c => (stable_const _).ite ((ih (i + 1)).map (c :: ·))

/-- A character of the string. -/
theorem View.ofString_lt (h : i < text.length) : View.ofString text i = some text[i] := by
  rw [View.ofString, List.getElem?_append_left h, List.getElem?_eq_getElem h]

/-- The NUL behind it. -/
@[simp]
theorem View.ofString_length (text : List UInt8) : View.ofString text text.length = some 0 := by
  simp [View.ofString]

/-- A string is read back from its own bytes. -/
theorem readString_ofString (fuel : ℕ) (hnul : 0 ∉ text) (hi : i ≤ text.length)
    (hfuel : text.length < fuel + i) :
    readString (View.ofString text) fuel i = some (text.drop i) := by
  induction fuel generalizing i with
  | zero => omega
  | succ fuel ih =>
    rw [readString]
    cases Nat.lt_or_eq_of_le hi with
    | inl hlt =>
      have hne : text[i] ≠ 0 := fun h => hnul (h ▸ List.getElem_mem hlt)
      rw [View.ofString_lt hlt, Option.bind_some, if_neg hne, ih hlt (by omega), Option.map_some,
        List.drop_eq_getElem_cons hlt]
    | inr heq =>
      subst heq
      simp

/-- What was read stands where it was read, with a NUL behind it. -/
theorem of_readString (h : readString v fuel i = some text) :
    (∀ j c, View.ofString text j = some c → v (i + j) = some c) ∧ 0 ∉ text ∧
      text.length < fuel := by
  induction fuel generalizing i text with
  | zero => exact absurd h (by simp [readString])
  | succ fuel ih =>
    rw [readString] at h
    obtain ⟨c, hc, h⟩ := Option.bind_eq_some_iff.1 h
    by_cases hz : c = 0
    · rw [if_pos hz] at h
      obtain rfl := Option.some.inj h
      refine ⟨?_, List.not_mem_nil, Nat.succ_pos fuel⟩
      intro j b hb
      obtain rfl : j = 0 := by
        by_contra hj
        simp [View.ofString, hj] at hb
      rw [hz] at hc
      simpa [View.ofString, hc] using hb
    · rw [if_neg hz] at h
      obtain ⟨rest, hrest, rfl⟩ := Option.map_eq_some_iff.1 h
      obtain ⟨hbytes, hnul, hlen⟩ := ih hrest
      refine ⟨?_, by simp [hnul, Ne.symm hz], by simpa using hlen⟩
      intro j b hb
      cases j with
      | zero =>
        rw [Nat.add_zero, hc]
        simpa [View.ofString] using hb
      | succ j =>
        rw [← Nat.add_assoc, Nat.add_right_comm]
        exact hbytes j b (by simpa [View.ofString] using hb)

/-- A string read from a pointer stands there. -/
theorem within_of_readString (h : readString v fuel 0 = some text) :
    (View.ofString text).Within v := by
  intro j c hc
  simpa using (of_readString h).1 j c hc

/-- Where there is a NUL within the readable bytes, there is a string. -/
theorem exists_readString (fuel : ℕ) (hin : i < n) (hz : m (n - 1) = 0) (hfuel : n ≤ fuel + i) :
    ∃ text, readString (View.firstBytes m n) fuel i = some text := by
  induction fuel generalizing i with
  | zero => omega
  | succ fuel ih =>
    rw [readString, View.firstBytes, if_pos hin, Option.bind_some]
    by_cases hc : m i = 0
    · exact ⟨[], if_pos hc⟩
    · have hne : i ≠ n - 1 := fun h => hc (h ▸ hz)
      obtain ⟨text, htext⟩ := ih (i := i + 1) (by omega) (by omega)
      exact ⟨m i :: text, by rw [if_neg hc, htext, Option.map_some]⟩

/-- A string stands at the start of a memory that begins with its bytes and a NUL. -/
theorem View.ofString_within (hbytes : ∀ j (h : j < text.length), m j = text[j])
    (hz : m text.length = 0) (hsize : text.length < n) :
    (View.ofString text).Within (View.firstBytes m n) := by
  intro j c hc
  have hj : j < (text ++ [0]).length := (List.getElem?_eq_some_iff.1 hc).1
  rw [List.length_append, List.length_singleton] at hj
  rw [View.firstBytes, if_pos (by omega)]
  cases Nat.lt_or_eq_of_le (Nat.le_of_lt_succ hj) with
  | inl hlt =>
    rw [hbytes j hlt, ← hc, View.ofString_lt hlt]
  | inr heq =>
    subst heq
    rw [hz, ← hc, View.ofString_length]

/-! ## Strings in a whole memory -/

/-- A string and its NUL stand at an address. -/
def StringAt (m : Memory) : (a : ℕ) → List UInt8 → Prop
  | a, [] => m a = 0
  | a, c :: text => m a = c ∧ c ≠ 0 ∧ StringAt m (a + 1) text

instance decidableStringAt (m : Memory) : (a : ℕ) → (text : List UInt8) →
    Decidable (StringAt m a text)
  | a, [] => inferInstanceAs (Decidable (m a = 0))
  | a, c :: text =>
    have := decidableStringAt m (a + 1) text
    inferInstanceAs (Decidable (m a = c ∧ c ≠ 0 ∧ StringAt m (a + 1) text))

variable {m' : Memory} {a : ℕ} {rest : List UInt8}

/-- A string moves with its bytes. -/
theorem StringAt.shift {b : ℕ} (hs : StringAt m a text)
    (h : ∀ k ≤ text.length, m' (b + k) = m (a + k)) : StringAt m' b text := by
  induction text generalizing a b with
  | nil => exact (h 0 (Nat.le_refl 0)).trans hs
  | cons c text ih =>
    obtain ⟨hc, hne, hrest⟩ := hs
    refine ⟨(h 0 (Nat.zero_le _)).trans hc, hne, ih hrest fun k hk => ?_⟩
    rw [Nat.add_assoc, Nat.add_assoc, Nat.add_comm 1]
    exact h (k + 1) (Nat.succ_le_succ hk)

/-- A string stays as long as its bytes and its NUL do. -/
theorem StringAt.congr (hs : StringAt m a text)
    (h : ∀ x, a ≤ x → x ≤ a + text.length → m' x = m x) : StringAt m' a text :=
  hs.shift fun _ hk => h _ (Nat.le_add_right a _) (Nat.add_le_add_left hk a)

/-- The end of a string is exchanged for another one. -/
theorem StringAt.replace {new : List UInt8} (hs : StringAt m a (text ++ rest))
    (h : ∀ x, a ≤ x → x < a + text.length → m' x = m x)
    (hnew : StringAt m' (a + text.length) new) : StringAt m' a (text ++ new) := by
  induction text generalizing a with
  | nil => exact hnew
  | cons c text ih =>
    obtain ⟨hc, hne, hrest⟩ := hs
    rw [List.length_cons, Nat.add_comm text.length, ← Nat.add_assoc] at h hnew
    refine ⟨(h a (Nat.le_refl a) (by omega)).trans hc, hne, ih hrest ?_ hnew⟩
    intro x hx hlt
    exact h x (by omega) hlt

/-- The part of a string behind an initial one. -/
theorem StringAt.tail (hs : StringAt m a (text ++ rest)) : StringAt m (a + text.length) rest := by
  induction text generalizing a with
  | nil => exact hs
  | cons c text ih =>
    obtain ⟨-, -, htail⟩ := hs
    rw [List.length_cons, Nat.add_comm text.length, ← Nat.add_assoc]
    exact ih htail

/-- The NUL behind the string. -/
theorem StringAt.nul (hs : StringAt m a text) : m (a + text.length) = 0 := by
  have h : StringAt m a (text ++ []) := by rwa [List.append_nil]
  exact h.tail

/-- A NUL cuts a string off. -/
theorem StringAt.cut (hs : StringAt m a (text ++ rest)) :
    StringAt (Function.update m (a + text.length) 0) a text := by
  induction text generalizing a with
  | nil => exact Function.update_self ..
  | cons c text ih =>
    obtain ⟨hc, hne, htail⟩ := hs
    rw [List.length_cons, Nat.add_comm text.length, ← Nat.add_assoc]
    refine ⟨?_, hne, ih htail⟩
    rw [Function.update_of_ne (by omega)]
    exact hc

/-- There is none in it. -/
theorem StringAt.notMem (hs : StringAt m a text) : 0 ∉ text := by
  induction text generalizing a with
  | nil => exact List.not_mem_nil
  | cons c text ih =>
    obtain ⟨-, hne, hrest⟩ := hs
    simp [Ne.symm hne, ih hrest]

/-- Bytes with a NUL among them are a string. -/
theorem stringAt_of_loadBytes {bytes : List UInt8} (h : loadBytes m bytes.length a = bytes)
    (hnul : 0 ∈ bytes) : StringAt m a (bytes.takeWhile (· ≠ 0)) := by
  induction bytes generalizing a with
  | nil => exact absurd hnul List.not_mem_nil
  | cons c bytes ih =>
    obtain ⟨hc, hrest⟩ := List.cons.inj h
    by_cases hz : c = 0
    · simpa [hz, StringAt] using hc
    · rw [List.takeWhile_cons_of_pos (by simpa using hz)]
      refine ⟨hc, hz, ih hrest ?_⟩
      simpa [Ne.symm hz] using hnul

/-- A string that is stored with its NUL. -/
theorem stringAt_storeBytes (m : Memory) (a : ℕ) (hnul : 0 ∉ text) :
    StringAt (storeBytes m a (text ++ [0])) a text := by
  have h := stringAt_of_loadBytes (loadBytes_storeBytes_same m a (text ++ [0])) (by simp)
  have htake : ∀ c ∈ text, decide (c ≠ 0) = true := fun c hc =>
    decide_eq_true fun hz => hnul (hz ▸ hc)
  rw [List.takeWhile_append_of_pos htake] at h
  simpa using h

end Orionis.Foundations
