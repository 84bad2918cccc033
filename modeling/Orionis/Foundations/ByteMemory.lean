import Mathlib.Data.List.GetD
import Mathlib.Logic.Function.Basic
import Mathlib.Tactic.Ring

/-!
# Byte-addressed memory

A memory gives every address a byte. Numbers of `n` bytes are loaded and stored in
little-endian order; a store is invisible outside its own `n` bytes.
-/

namespace Orionis.Foundations

/-- The contents of every byte address. -/
abbrev Memory := ℕ → UInt8

/-- The little-endian number in the `n` bytes from `a`. -/
def loadLE (m : Memory) : (n a : ℕ) → ℕ
  | 0, _ => 0
  | n + 1, a => (m a).toNat + 256 * loadLE m n (a + 1)

/-- Write the low `n` bytes of `v` from `a` on, least significant byte first. -/
def storeLE (m : Memory) : (n a v : ℕ) → Memory
  | 0, _, _ => m
  | n + 1, a, v => Function.update (storeLE m n (a + 1) (v / 256)) a (UInt8.ofNat v)

/-- Write bytes one after the other from `a` on. -/
def storeBytes (m : Memory) : (a : ℕ) → List UInt8 → Memory
  | _, [] => m
  | a, b :: bytes => storeBytes (Function.update m a b) (a + 1) bytes

/-- The `n` bytes from `a` on. -/
def loadBytes (m : Memory) : (n a : ℕ) → List UInt8
  | 0, _ => []
  | n + 1, a => m a :: loadBytes m n (a + 1)

/-- A store leaves every byte outside its range as it was. -/
theorem storeLE_of_outside (m : Memory) (n a v x : ℕ) (h : x < a ∨ a + n ≤ x) :
    storeLE m n a v x = m x := by
  induction n generalizing a v with
  | zero => rfl
  | succ n ih =>
    rw [storeLE, Function.update_of_ne (by omega), ih (a + 1) (v / 256) (by omega)]

/-- A load only depends on the bytes of its range. -/
theorem loadLE_congr {m m' : Memory} {n a : ℕ} (h : ∀ x, a ≤ x → x < a + n → m x = m' x) :
    loadLE m n a = loadLE m' n a := by
  induction n generalizing a with
  | zero => rfl
  | succ n ih =>
    rw [loadLE, loadLE, h a le_rfl (by omega), ih fun x hlo hhi => h x (by omega) (by omega)]

/-- Equal bytes at another place make an equal number. -/
theorem loadLE_shift {m m' : Memory} {n a b : ℕ} (h : ∀ i < n, m (a + i) = m' (b + i)) :
    loadLE m n a = loadLE m' n b := by
  induction n generalizing a b with
  | zero => rfl
  | succ n ih =>
    have hrest : ∀ i < n, m (a + 1 + i) = m' (b + 1 + i) := fun i hi => by
      rw [Nat.add_right_comm, Nat.add_right_comm b]
      exact h (i + 1) (by omega)
    rw [loadLE, loadLE, ih hrest]
    exact congrArg (fun byte => byte.toNat + 256 * loadLE m' n (b + 1)) (h 0 (by omega))

/-- A load returns the value stored at the same place, cut to its width. -/
theorem loadLE_storeLE_same (m : Memory) (n a v : ℕ) :
    loadLE (storeLE m n a v) n a = v % 256 ^ n := by
  induction n generalizing a v with
  | zero => simp [loadLE, Nat.mod_one]
  | succ n ih =>
    have htail : loadLE (storeLE m (n + 1) a v) n (a + 1) =
        loadLE (storeLE m n (a + 1) (v / 256)) n (a + 1) :=
      loadLE_congr fun x hlo _ => by rw [storeLE, Function.update_of_ne (by omega)]
    have hbyte : (storeLE m (n + 1) a v a).toNat = v % 256 := by
      rw [storeLE, Function.update_self, UInt8.toNat_ofNat']
    rw [loadLE, htail, ih, hbyte, pow_succ' 256 n, Nat.mod_mul]

/-- A store at an offset is the same in a copy at another place. -/
theorem storeLE_shift {m m' : Memory} {n a b j k v : ℕ} (h : m (a + k) = m' (b + k)) :
    storeLE m n (a + j) v (a + k) = storeLE m' n (b + j) v (b + k) := by
  induction n generalizing j v with
  | zero => exact h
  | succ n ih =>
    rw [storeLE, storeLE]
    by_cases hkj : k = j
    · rw [hkj, Function.update_self, Function.update_self]
    · rw [Function.update_of_ne (by omega), Function.update_of_ne (by omega), Nat.add_assoc a, Nat.add_assoc b]
      exact ih

/-- A load does not see a store to a range that does not meet its own. -/
theorem loadLE_storeLE_of_disjoint (m : Memory) (n a v k b : ℕ) (h : b + k ≤ a ∨ a + n ≤ b) :
    loadLE (storeLE m n a v) k b = loadLE m k b :=
  loadLE_congr fun x hlo hhi => storeLE_of_outside m n a v x (by omega)

/-- A load of `n` bytes is below `256 ^ n`. -/
theorem loadLE_lt (m : Memory) (n a : ℕ) : loadLE m n a < 256 ^ n := by
  induction n generalizing a with
  | zero => simp [loadLE]
  | succ n ih =>
    have hbyte := (m a).toNat_lt
    have htail := ih (a + 1)
    rw [loadLE, pow_succ]
    omega

/-! ## Byte strings -/

/-- Writing bytes leaves every byte outside their range as it was. -/
theorem storeBytes_of_outside (m : Memory) (a : ℕ) (bytes : List UInt8) (x : ℕ)
    (h : x < a ∨ a + bytes.length ≤ x) : storeBytes m a bytes x = m x := by
  induction bytes generalizing m a with
  | nil => rfl
  | cons b bytes ih =>
    simp only [List.length_cons] at h
    rw [storeBytes, ih _ _ (by omega), Function.update_of_ne (by omega)]

/-- Reading bytes only depends on the bytes of the range. -/
theorem loadBytes_congr {m m' : Memory} {n a : ℕ} (h : ∀ x, a ≤ x → x < a + n → m x = m' x) :
    loadBytes m n a = loadBytes m' n a := by
  induction n generalizing a with
  | zero => rfl
  | succ n ih =>
    rw [loadBytes, loadBytes, h a le_rfl (by omega), ih fun x hlo hhi => h x (by omega) (by omega)]

/-- Equal bytes at another place read the same. -/
theorem loadBytes_shift {m m' : Memory} {n a b : ℕ} (h : ∀ i < n, m (a + i) = m' (b + i)) :
    loadBytes m n a = loadBytes m' n b := by
  induction n generalizing a b with
  | zero => rfl
  | succ n ih =>
    have hrest : ∀ i < n, m (a + 1 + i) = m' (b + 1 + i) := fun i hi => by
      rw [Nat.add_right_comm, Nat.add_right_comm b]
      exact h (i + 1) (by omega)
    rw [loadBytes, loadBytes, ih hrest]
    exact congrArg (· :: loadBytes m' n (b + 1)) (h 0 (by omega))

/-- Bytes that read the same are the same. -/
theorem loadBytes_inj {m m' : Memory} {n a x : ℕ} (h : loadBytes m n a = loadBytes m' n a)
    (hlo : a ≤ x) (hhi : x < a + n) : m x = m' x := by
  induction n generalizing a with
  | zero => exact absurd hhi (Nat.not_lt_of_le hlo)
  | succ n ih =>
    obtain ⟨hfirst, hrest⟩ := List.cons_eq_cons.1 h
    rcases hlo.eq_or_lt with rfl | hlt
    · exact hfirst
    · exact ih hrest hlt (by omega)

/-- A range in two parts. -/
theorem loadBytes_add (m : Memory) (n k a : ℕ) :
    loadBytes m (n + k) a = loadBytes m n a ++ loadBytes m k (a + n) := by
  induction n generalizing a with
  | zero => simp [loadBytes]
  | succ n ih => rw [Nat.add_right_comm, loadBytes, loadBytes, ih, List.cons_append, Nat.add_assoc, Nat.add_comm 1 n]

/-- As many bytes as asked for. -/
theorem length_loadBytes (m : Memory) (n a : ℕ) : (loadBytes m n a).length = n := by
  induction n generalizing a with
  | zero => rfl
  | succ n ih => rw [loadBytes, List.length_cons, ih]

/-- Reading a list of bytes as a memory. -/
theorem loadBytes_getD {bytes : List UInt8} {n a : ℕ} (h : a + n ≤ bytes.length) :
    loadBytes (fun x => bytes.getD x 0) n a = (bytes.drop a).take n := by
  induction n generalizing a with
  | zero => rfl
  | succ n ih =>
    have hlt : a < bytes.length := by omega
    rw [loadBytes, ih (by omega), List.drop_eq_getElem_cons hlt, List.take_succ_cons,
      List.getD_eq_getElem _ _ hlt]

/-- The bytes written are read back. -/
theorem loadBytes_storeBytes_same (m : Memory) (a : ℕ) (bytes : List UInt8) :
    loadBytes (storeBytes m a bytes) bytes.length a = bytes := by
  induction bytes generalizing m a with
  | nil => rfl
  | cons b bytes ih =>
    rw [storeBytes, List.length_cons, loadBytes, storeBytes_of_outside _ _ _ _ (by omega),
      Function.update_self, ih]

/-- Bytes that are read and written elsewhere arrive. -/
theorem storeBytes_loadBytes (m m' : Memory) {n a b i : ℕ} (hi : i < n) :
    storeBytes m a (loadBytes m' n b) (a + i) = m' (b + i) := by
  induction n generalizing m a b i with
  | zero => exact absurd hi (Nat.not_lt_zero i)
  | succ n ih =>
    rw [loadBytes, storeBytes]
    cases i with
    | zero =>
      rw [storeBytes_of_outside _ _ _ _ (by omega)]
      exact Function.update_self _ _ _
    | succ i =>
      rw [Nat.add_comm i 1, ← Nat.add_assoc, ← Nat.add_assoc]
      exact ih _ (by omega)

/-! ## Copying -/

/-- Bytes are copied one by one, in the order of the rounds. -/
def copyRounds (dest src : ℕ) (rounds : List ℕ) (m : Memory) : Memory :=
  rounds.foldl (fun m i => Function.update m (dest + i) (m (src + i))) m

variable {dest src : ℕ} {rounds : List ℕ}

/-- Rounds change the bytes of their destinations only. -/
theorem copyRounds_of_outside (m : Memory) {a : ℕ} (h : ∀ i ∈ rounds, a ≠ dest + i) :
    copyRounds dest src rounds m a = m a := by
  induction rounds generalizing m with
  | nil => rfl
  | cons i rounds ih =>
    obtain ⟨hi, hrest⟩ := List.forall_mem_cons.1 h
    rw [copyRounds, List.foldl_cons]
    exact (ih _ hrest).trans (Function.update_of_ne hi _ _)

/-- Where no round reads or writes what one before it has written, every byte arrives. -/
theorem copyRounds_apply (m : Memory)
    (hfresh : rounds.Pairwise fun i j => dest + i ≠ src + j ∧ i ≠ j) {i : ℕ} (hi : i ∈ rounds) :
    copyRounds dest src rounds m (dest + i) = m (src + i) := by
  induction rounds generalizing m with
  | nil => exact absurd hi List.not_mem_nil
  | cons j rounds ih =>
    obtain ⟨hj, hrest⟩ := List.pairwise_cons.1 hfresh
    rw [copyRounds, List.foldl_cons]
    rcases List.mem_cons.1 hi with rfl | hlater
    · have hkept : ∀ k ∈ rounds, dest + i ≠ dest + k := fun k hk heq =>
        (hj k hk).2 (Nat.add_left_cancel heq)
      exact (copyRounds_of_outside _ hkept).trans (Function.update_self _ _ _)
    · have hread : src + i ≠ dest + j := (hj i hlater).1.symm
      exact (ih _ hrest hlater).trans (Function.update_of_ne hread _ _)

end Orionis.Foundations
