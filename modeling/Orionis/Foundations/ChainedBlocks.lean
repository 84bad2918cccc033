import Mathlib.Data.List.Chain
import Orionis.Foundations.ByteMemory

/-!
# Files as chains of blocks

A file lies in blocks of one size, each of which leads to the next. Blocks that follow each other in
memory can be read in one piece.
-/

namespace Orionis.Foundations

/-- The bytes of a list of blocks. -/
def blockBytes (m : Memory) (size : ℕ) (addr : ℕ → ℕ) (blocks : List ℕ) : List UInt8 :=
  blocks.flatMap fun c => loadBytes m size (addr c)

/-- Each block leads to the one behind it. -/
def Chained (next : ℕ → ℕ) (blocks : List ℕ) : Prop := blocks.IsChain fun c d => next c = d

/-- How many of the next `k` blocks behind `c` follow each other. -/
def consecutive (next : ℕ → ℕ) (c : ℕ) : ℕ → ℕ
  | 0 => 0
  | k + 1 => if next c = c + 1 then consecutive next (c + 1) k + 1 else 0

variable {m : Memory} {next addr : ℕ → ℕ} {size c k n a : ℕ} {blocks rest : List ℕ}

/-- No more blocks are counted than looked at. -/
theorem consecutive_le : consecutive next c k ≤ k := by
  induction k generalizing c with
  | zero => exact le_refl 0
  | succ k ih =>
    rw [consecutive]
    split
    · exact Nat.succ_le_succ ih
    · exact Nat.zero_le _

/-- Every block has its size. -/
theorem length_blockBytes : (blockBytes m size addr blocks).length = blocks.length * size := by
  induction blocks with
  | nil => simp [blockBytes]
  | cons c rest ih =>
    rw [blockBytes, List.flatMap_cons, List.length_append, length_loadBytes, ← blockBytes, ih,
      List.length_cons, Nat.succ_mul, Nat.add_comm]

/-- The first block and the others. -/
theorem blockBytes_cons : blockBytes m size addr (c :: rest) =
    loadBytes m size (addr c) ++ blockBytes m size addr rest := List.flatMap_cons

/-- A part of a range of bytes. -/
theorem take_drop_loadBytes {loc count : ℕ} (h : loc + count ≤ n) :
    ((loadBytes m n a).drop loc).take count = loadBytes m count (a + loc) := by
  obtain ⟨k, rfl⟩ := Nat.exists_eq_add_of_le h
  rw [Nat.add_assoc, loadBytes_add, List.drop_append_of_le_length (by rw [length_loadBytes]),
    List.drop_of_length_le (by rw [length_loadBytes]), List.nil_append, loadBytes_add,
    List.take_append_of_le_length (by rw [length_loadBytes]),
    List.take_of_length_le (by rw [length_loadBytes])]

/-- Blocks that follow each other lie in one piece, and the part of the file in the first of them is
a part of it. -/
theorem take_drop_consecutive {lo loc count : ℕ} (haddr : ∀ c, lo ≤ c → addr (c + 1) = addr c + size)
    (hchain : Chained next (c :: rest)) (hlo : lo ≤ c)
    (hpiece : loc + count ≤ (consecutive next c k + 1) * size)
    (hfile : loc + count ≤ (c :: rest).length * size) :
    ((blockBytes m size addr (c :: rest)).drop loc).take count = loadBytes m count (addr c + loc) := by
  -- as many blocks as the read needs are at the front of the file
  have hfront : ∀ (k c : ℕ) (rest : List ℕ), lo ≤ c → Chained next (c :: rest) →
      ∃ front back, blockBytes m size addr (c :: rest) = loadBytes m front (addr c) ++ back ∧
        (front = (consecutive next c k + 1) * size ∨ front = (c :: rest).length * size) := by
    intro k
    induction k with
    | zero =>
      intro c rest _ _
      exact ⟨size, blockBytes m size addr rest, blockBytes_cons, .inl (by simp [consecutive])⟩
    | succ k ih =>
      intro c rest hlo hchain
      rw [consecutive]
      split
      · next hnext =>
        cases rest with
        | nil => exact ⟨size, [], by rw [blockBytes_cons]; rfl, .inr (by simp)⟩
        | cons d rest =>
          obtain ⟨hd, hrest⟩ := List.isChain_cons_cons.1 hchain
          obtain rfl : c + 1 = d := hnext.symm.trans hd
          obtain ⟨front, back, hbytes, hlen⟩ := ih (c + 1) rest (by omega) hrest
          refine ⟨size + front, back, ?_, ?_⟩
          · rw [blockBytes_cons, hbytes, loadBytes_add, haddr c hlo, List.append_assoc]
          · rw [List.length_cons, List.length_cons, Nat.succ_mul, Nat.succ_mul (rest.length + 1),
              Nat.add_comm size front]
            rw [List.length_cons] at hlen
            omega
      · exact ⟨size, blockBytes m size addr rest, blockBytes_cons, .inl (by simp)⟩
  obtain ⟨front, back, hbytes, hlen⟩ := hfront k c rest hlo hchain
  have hfits : loc + count ≤ front := by rcases hlen with rfl | rfl <;> assumption
  rw [hbytes, List.drop_append_of_le_length (by rw [length_loadBytes]; omega),
    List.take_append_of_le_length (by rw [List.length_drop, length_loadBytes]; omega),
    take_drop_loadBytes hfits]

/-- Behind some of its blocks the file goes on with the others. -/
theorem drop_blockBytes (k : ℕ) : (blockBytes m size addr blocks).drop (k * size) =
    blockBytes m size addr (blocks.drop k) := by
  induction k generalizing blocks with
  | zero => rw [Nat.zero_mul, List.drop_zero, List.drop_zero]
  | succ k ih =>
    cases blocks with
    | nil => simp [blockBytes]
    | cons c rest =>
      rw [blockBytes_cons, Nat.succ_mul, Nat.add_comm, List.drop_append, length_loadBytes,
        Nat.add_sub_cancel_left, ih, List.drop_of_length_le (by rw [length_loadBytes]; omega),
        List.nil_append, List.drop_succ_cons]

/-- Each block begins a multiple of the size into the file. -/
theorem getElem?_blockBytes {d : ℕ} (hsize : 0 < size) (h : blocks[k]? = some d) :
    (blockBytes m size addr blocks)[k * size]? = some (m (addr d)) := by
  induction blocks generalizing k with
  | nil => simp at h
  | cons c rest ih =>
    rw [blockBytes_cons]
    cases k with
    | zero =>
      obtain ⟨n, rfl⟩ := Nat.exists_eq_succ_of_ne_zero (Nat.ne_of_gt hsize)
      obtain rfl := Option.some.inj h
      rw [Nat.zero_mul, loadBytes]
      rfl
    | succ k =>
      rw [List.getElem?_append_right (by rw [length_loadBytes, Nat.succ_mul]; omega), length_loadBytes,
        Nat.succ_mul, Nat.add_sub_cancel]
      exact ih h

end Orionis.Foundations
