import Orionis.Foundations.ByteMemory

/-!
# Stacks of words

A stack that grows down in memory, eight bytes a word. Words pushed are found from the top on in
reverse order, until something writes between the stack pointer and where it was.
-/

namespace Orionis.Foundations

/-- The memory after words are pushed one after the other, the stack pointer being `sp` before. -/
def pushWords (m : Memory) : (sp : ℕ) → List UInt64 → Memory
  | _, [] => m
  | sp, w :: ws => pushWords (storeLE m 8 (sp - 8) w.toNat) (sp - 8) ws

/-- The word at an address. -/
def loadWord (m : Memory) (a : ℕ) : UInt64 := UInt64.ofNat (loadLE m 8 a)

/-- Words that lie one behind the other. -/
def WordsAt (m : Memory) : (a : ℕ) → List UInt64 → Prop
  | _, [] => True
  | a, w :: ws => loadWord m a = w ∧ WordsAt m (a + 8) ws

variable {m m' : Memory} {sp a : ℕ} {w : UInt64} {ws vs : List UInt64}

/-- Words pushed one after the other. -/
theorem pushWords_append : pushWords m sp (ws ++ vs) =
    pushWords (pushWords m sp ws) (sp - 8 * ws.length) vs := by
  induction ws generalizing m sp with
  | nil => rfl
  | cons w ws ih =>
    rw [List.cons_append, pushWords, pushWords, ih, List.length_cons, Nat.sub_sub]
    congr 2
    omega

/-- Pushing writes below the stack pointer only, as far as the words reach. -/
theorem pushWords_of_outside {x : ℕ} (hroom : 8 * ws.length ≤ sp)
    (hx : x < sp - 8 * ws.length ∨ sp ≤ x) : pushWords m sp ws x = m x := by
  induction ws generalizing m sp with
  | nil => rfl
  | cons w ws ih =>
    rw [List.length_cons] at hroom hx
    rw [pushWords, ih (by omega) (by omega), storeLE_of_outside _ _ _ _ _ (by omega)]

/-- A word that was stored. -/
theorem loadWord_store (m : Memory) (a : ℕ) (w : UInt64) :
    loadWord (storeLE m 8 a w.toNat) a = w := by
  have hlt : w.toNat < 256 ^ 8 := w.toNat_lt
  rw [loadWord, loadLE_storeLE_same, Nat.mod_eq_of_lt hlt, UInt64.ofNat_toNat]

/-- A word is its eight bytes. -/
theorem loadWord_congr (h : ∀ x, a ≤ x → x < a + 8 → m x = m' x) : loadWord m a = loadWord m' a := by
  rw [loadWord, loadWord, loadLE_congr h]

/-- Words stay as long as their bytes do. -/
theorem WordsAt.congr (h : WordsAt m a ws) (hsame : ∀ x, a ≤ x → x < a + 8 * ws.length → m' x = m x) :
    WordsAt m' a ws := by
  induction ws generalizing a with
  | nil => trivial
  | cons w ws ih =>
    rw [List.length_cons] at hsame
    refine ⟨?_, ih h.2 fun x hlo hhi => hsame x (by omega) (by omega)⟩
    rw [← h.1]
    exact loadWord_congr fun x hlo hhi => hsame x hlo (by omega)

/-- Words one behind the other. -/
theorem wordsAt_append : WordsAt m a (ws ++ vs) ↔
    WordsAt m a ws ∧ WordsAt m (a + 8 * ws.length) vs := by
  induction ws generalizing a with
  | nil => exact ⟨fun h => ⟨trivial, h⟩, fun h => h.2⟩
  | cons w ws ih =>
    rw [List.cons_append, WordsAt, WordsAt, ih, List.length_cons, and_assoc]
    rw [show a + 8 + 8 * ws.length = a + 8 * (ws.length + 1) by omega]

/-- The words pushed, from the stack pointer on. -/
theorem wordsAt_pushWords (hroom : 8 * ws.length ≤ sp) :
    WordsAt (pushWords m sp ws) (sp - 8 * ws.length) ws.reverse := by
  induction ws generalizing m sp with
  | nil => trivial
  | cons w ws ih =>
    rw [List.length_cons] at hroom ⊢
    rw [pushWords, List.reverse_cons, wordsAt_append, List.length_reverse]
    have hrest := @ih (storeLE m 8 (sp - 8) w.toNat) (sp - 8) (by omega)
    rw [Nat.sub_sub, show 8 + 8 * ws.length = 8 * (ws.length + 1) by omega] at hrest
    refine ⟨hrest, ?_, trivial⟩
    rw [show sp - 8 * (ws.length + 1) + 8 * ws.length = sp - 8 by omega]
    refine Eq.trans (loadWord_congr fun x hlo hhi => ?_) (loadWord_store m (sp - 8) w)
    exact pushWords_of_outside (by omega) (by omega)

end Orionis.Foundations
