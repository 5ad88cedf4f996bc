import Mathlib

/-!
# Streams of blocks

A stream cut into blocks of `B` elements, block `k` being `blk k`, read through windows:
`get B blk q` is element `q` of the stream (element `q % B` of block `q / B`), and
`window B blk p n` the `n` elements from position `p`. A reader that serves such a stream piece
by piece, whatever it keeps between requests, is correct when each request returns the window at
its position; `window_add` glues the requests together.

The blocks are windows themselves (`window_block`, and `window_blocks` for a run of them), and
so are the parts of a window a buffer keeps or hands out (`take_window`, `drop_window`). A list
cut into blocks (`chunk`) is the stream of those blocks (`flatMap_chunk`), and two runs of blocks
of equal lengths combine block by block (`flatMap_zipWith`).
-/

namespace BlockStream

variable {α : Type} [Inhabited α] (B : ℕ) (blk : ℕ → List α)

/-- Element `q` of the stream: element `q % B` of block `q / B`. -/
def get (q : ℕ) : α :=
  (blk (q / B)).getD (q % B) default

/-- The `n` elements of the stream from position `p`. -/
def window (p n : ℕ) : List α :=
  (List.range n).map fun i => get B blk (p + i)

@[simp] theorem length_window (p n : ℕ) : (window B blk p n).length = n := by
  simp [window]

@[simp] theorem window_zero (p : ℕ) : window B blk p 0 = [] := rfl

/-- Two consecutive windows are one. -/
theorem window_add (p n m : ℕ) :
    window B blk p (n + m) = window B blk p n ++ window B blk (p + n) m := by
  simp only [window, List.range_add, List.map_append, List.map_map]
  congr 1
  refine List.map_congr_left fun i _ => ?_
  simp [Nat.add_assoc]

theorem take_window {p n k : ℕ} (hk : k ≤ n) :
    (window B blk p n).take k = window B blk p k := by
  obtain ⟨m, rfl⟩ := Nat.exists_eq_add_of_le hk
  rw [window_add, List.take_left' (length_window B blk p k)]

theorem drop_window {p n k : ℕ} (hk : k ≤ n) :
    (window B blk p n).drop k = window B blk (p + k) (n - k) := by
  obtain ⟨m, rfl⟩ := Nat.exists_eq_add_of_le hk
  rw [window_add, List.drop_left' (length_window B blk p k), Nat.add_sub_cancel_left]

theorem getD_window {p n q : ℕ} (hq : q < n) :
    (window B blk p n).getD q default = get B blk (p + q) := by
  simp [window, List.getD_eq_getElem?_getD, hq]

section Blocks

variable {B blk}

/-- A whole block, read from its first position. -/
theorem window_block (hB : ∀ k, (blk k).length = B) (k : ℕ) :
    window B blk (B * k) B = blk k := by
  apply List.ext_getElem (by rw [length_window, hB])
  intro i hi _
  rw [length_window] at hi
  have hB0 : 0 < B := by omega
  simp only [window, List.getElem_map, List.getElem_range, get,
    Nat.mul_add_div hB0, Nat.div_eq_of_lt hi, Nat.add_zero, Nat.mul_add_mod_self_left,
    Nat.mod_eq_of_lt hi]
  exact List.getD_eq_getElem _ _ _

/-- `j` whole blocks from block `k` on. -/
theorem window_blocks (hB : ∀ k, (blk k).length = B) (k j : ℕ) :
    window B blk (B * k) (B * j) = (List.range j).flatMap fun i => blk (k + i) := by
  induction j with
  | zero => rfl
  | succ j ih =>
    rw [Nat.mul_succ, window_add, ih, ← Nat.mul_add, window_block hB, List.range_succ,
      List.flatMap_append, List.flatMap_singleton]

end Blocks

/-! ### A list cut into blocks -/

/-- Block `k` of `l` cut into blocks of `B`, read with `getD` past its end. -/
def chunk (l : List α) (k : ℕ) : List α :=
  (List.range B).map fun t => l.getD (B * k + t) default

@[simp] theorem length_chunk (l : List α) (k : ℕ) : (chunk B l k).length = B := by
  simp [chunk]

theorem get_chunk {B : ℕ} (hB : 0 < B) (l : List α) (q : ℕ) :
    get B (chunk B l) q = l.getD q default := by
  simp [get, chunk, Nat.mod_lt q hB, Nat.div_add_mod]

/-- The first `B * j` elements of a list are its first `j` blocks. -/
theorem flatMap_chunk {l : List α} {j : ℕ} (h : B * j ≤ l.length) :
    (List.range j).flatMap (chunk B l) = l.take (B * j) := by
  rcases Nat.eq_zero_or_pos B with rfl | hB
  · simp [chunk]
  have hw := window_blocks (length_chunk B l) 0 j
  simp only [Nat.mul_zero, Nat.zero_add] at hw
  rw [← hw]
  apply List.ext_getElem (by simp [h])
  intro q hq _
  rw [length_window] at hq
  simp only [window, List.getElem_map, List.getElem_range, Nat.zero_add, get_chunk hB,
    List.getElem_take]
  exact List.getD_eq_getElem _ _ _

/-- Blocks of equal lengths combined element by element, block by block. -/
theorem flatMap_zipWith {ι β γ δ : Type} (f : β → γ → δ) (a : ι → List β) (b : ι → List γ)
    (h : ∀ i, (a i).length = (b i).length) (l : List ι) :
    l.flatMap (fun i => List.zipWith f (a i) (b i)) = List.zipWith f (l.flatMap a) (l.flatMap b) := by
  induction l with
  | nil => rfl
  | cons i l ih => simp only [List.flatMap_cons, ih, List.zipWith_append (h i)]

end BlockStream
