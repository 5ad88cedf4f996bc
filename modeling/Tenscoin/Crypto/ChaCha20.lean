import Mathlib
import Tenscoin.Arith.Uint256
import Tenscoin.Lib.BlockStream
import Tenscoin.Lib.XorCipher

/-!
# ChaCha20

`ChaCha20Aligned` (crypto/chacha20.cpp) makes keystream one 64-byte block at a time from twelve
input words: eight of key, the block counter `input[8]` and three of nonce. Every block advances
the counter, carrying into `input[9]`. `ChaCha20` serves requests of any length from it: first
what is left of its last block in `m_buffer` (`m_bufleft` bytes), then whole blocks straight from
the aligned cipher, then the first bytes of one more block, which it keeps in the buffer.

After a `Seek` the keystream is the stream of blocks `keyBlock j k` (`BlockStream`), `j` the
input words right after the `Seek`:

* `ChaCha20Aligned.Keystream_eq`, `ChaCha20Aligned.Crypt_eq`: the aligned cipher writes the
  blocks of successive counters (`counterOf`, `withCounter`: `input[8]` and `input[9]` as one
  64-bit counter, `nextCounter_eq`), and `Crypt` XORs them into its input (`writeLE32_readLE32`,
  `writeLE32_xor`: the word-wise XOR of `Crypt` is a byte-wise one);
* `ChaCha20.Crypt_keyed`: each of the three parts of `Crypt` XORs in what the same part of
  `Keystream` serves;
* `ChaCha20.Serves j w p`: `w` has served the first `p` bytes. `reuse_serves`, `blocks_serves`
  and `tail_serves` are the three parts of a request, `Keystream_serves` and `Crypt_serves` whole
  requests, and `run_serves` a run of them, by induction on the requests;
* `ChaCha20.SameStream`: two ciphers at one position of one stream stay in step, so one decrypts
  what the other encrypted (`XorCipher.run_run`).
-/

namespace Tenscoin

/-! ### Words and bytes -/

/-- The bytes `ReadLE32` reads are the bytes `WriteLE32` writes back. -/
theorem writeLE32_readLE32 (b₀ b₁ b₂ b₃ : UInt8) :
    writeLE32 (readLE32 b₀ b₁ b₂ b₃) = [b₀, b₁, b₂, b₃] := by
  simp only [writeLE32, List.cons.injEq, and_true]
  refine ⟨?_, ?_, ?_, ?_⟩ <;>
  · apply UInt8.toBitVec_inj.1
    ext i hi
    -- bit `i` of byte `k` is bit `8 k + i` of the word, below the next byte's bits
    have h₁ : 8 + i < 16 := by omega
    have h₂ : 16 + i < 24 := by omega
    have h₃ : 8 + i < 24 := by omega
    simp (disch := omega) [readLE32, BitVec.getLsbD_of_ge, h₁, h₂, h₃]

/-- A XOR of words is the XOR of their bytes. -/
theorem writeLE32_xor (x y : UInt32) :
    writeLE32 (x ^^^ y) = List.zipWith (· ^^^ ·) (writeLE32 x) (writeLE32 y) := by
  simp [writeLE32, UInt32.shiftRight_xor, UInt32.toUInt8_xor]

@[simp] theorem length_writeLE32 (x : UInt32) : (writeLE32 x).length = 4 := rfl

/-! ### `ChaCha20Aligned` -/

/-- `ChaCha20Aligned`: the words `input[0..11]`, eight of key, the block counter and three of
nonce. -/
structure ChaCha20Aligned where
  input : Vector UInt32 12

namespace ChaCha20Aligned

/-- `std::rotl` of a 32-bit word, for the rotations `0 < n < 32` of the quarter round. -/
def rotl (v n : UInt32) : UInt32 :=
  v <<< n ||| v >>> (32 - n)

/-- `QUARTERROUND(a,b,c,d)` on the working words `x`. -/
def quarterRound (x : Vector UInt32 16) (a b c d : Fin 16) : Vector UInt32 16 :=
  let x := x.set a (x[a] + x[b])
  let x := x.set d (rotl (x[d] ^^^ x[a]) 16)
  let x := x.set c (x[c] + x[d])
  let x := x.set b (rotl (x[b] ^^^ x[c]) 12)
  let x := x.set a (x[a] + x[b])
  let x := x.set d (rotl (x[d] ^^^ x[a]) 8)
  let x := x.set c (x[c] + x[d])
  x.set b (rotl (x[b] ^^^ x[c]) 7)

/-- One step of `REPEAT10`: four column rounds, then four diagonal rounds. -/
def doubleRound (x : Vector UInt32 16) : Vector UInt32 16 :=
  let x := quarterRound x 0 4 8 12
  let x := quarterRound x 1 5 9 13
  let x := quarterRound x 2 6 10 14
  let x := quarterRound x 3 7 11 15
  let x := quarterRound x 0 5 10 15
  let x := quarterRound x 1 6 11 12
  let x := quarterRound x 2 7 8 13
  quarterRound x 3 4 9 14

/-- The constants `x0…x3` start from. -/
def constants : Vector UInt32 4 := #v[0x61707865, 0x3320646e, 0x79622d32, 0x6b206574]

/-- The words `x0…x15` of the block for the input words `j4…j15` (`j`): the constants and `j`,
twenty rounds, and the constants and `j` added back. -/
def blockWords (j : Vector UInt32 12) : Vector UInt32 16 :=
  let x : Vector UInt32 16 := constants ++ j
  (doubleRound^[10] x).zipWith (· + ·) x

/-- One block of keystream: `WriteLE32(c + 4 i, x_i)` for the sixteen words. -/
def keystreamBlock (j : Vector UInt32 12) : List UInt8 :=
  (List.range 16).flatMap fun i => writeLE32 ((blockWords j).toList.getD i 0)

/-- One block of `Crypt`: `x_i ^= ReadLE32(m + 4 i)`, then `WriteLE32(c + 4 i, x_i)`. -/
def cryptBlock (j : Vector UInt32 12) (m : List UInt8) : List UInt8 :=
  (List.range 16).flatMap fun i =>
    writeLE32 ((blockWords j).toList.getD i 0 ^^^
      readLE32 (m.getD (4 * i) 0) (m.getD (4 * i + 1) 0) (m.getD (4 * i + 2) 0)
        (m.getD (4 * i + 3) 0))

/-- `++j12; if (!j12) ++j13;`: the next block counter, carrying into `input[9]`. -/
def nextCounter (j : Vector UInt32 12) : Vector UInt32 12 :=
  let j12 := j[8] + 1
  let j13 := if j12 = 0 then j[9] + 1 else j[9]
  (j.set 8 j12).set 9 j13

/-- `SetKey`: the key read little-endian into `input[0..7]`, the counter and nonce zero. -/
def SetKey (key : Vector UInt8 32) : ChaCha20Aligned where
  input := #v[readLE32 key[0] key[1] key[2] key[3], readLE32 key[4] key[5] key[6] key[7],
    readLE32 key[8] key[9] key[10] key[11], readLE32 key[12] key[13] key[14] key[15],
    readLE32 key[16] key[17] key[18] key[19], readLE32 key[20] key[21] key[22] key[23],
    readLE32 key[24] key[25] key[26] key[27], readLE32 key[28] key[29] key[30] key[31],
    0, 0, 0, 0]

/-- `Seek`: the block counter into `input[8]`, the nonce into `input[9..11]`. -/
def Seek (s : ChaCha20Aligned) (nonce : UInt32 × UInt64) (block_counter : UInt32) :
    ChaCha20Aligned where
  input := (((s.input.set 8 block_counter).set 9 nonce.1).set 10 nonce.2.toUInt32).set 11
    (nonce.2 >>> 32).toUInt32

/-- `Keystream` of `blocks` whole blocks: each block from the input words, then the counter
advanced, the words written back after the last block. -/
def Keystream (s : ChaCha20Aligned) : ℕ → List UInt8 × ChaCha20Aligned
  | 0 => ([], s)
  | blocks + 1 =>
    let (rest, s') := Keystream ⟨nextCounter s.input⟩ blocks
    (keystreamBlock s.input ++ rest, s')

/-- The loop of `Crypt` over `blocks` blocks of `m`. -/
def cryptLoop (s : ChaCha20Aligned) (m : List UInt8) : ℕ → List UInt8 × ChaCha20Aligned
  | 0 => ([], s)
  | blocks + 1 =>
    let (rest, s') := cryptLoop ⟨nextCounter s.input⟩ (m.drop 64) blocks
    (cryptBlock s.input m ++ rest, s')

/-- `Crypt` of `in_bytes`, a whole number of blocks (the code asserts it). -/
def Crypt (s : ChaCha20Aligned) (in_bytes : List UInt8) : List UInt8 × ChaCha20Aligned :=
  cryptLoop s in_bytes (in_bytes.length / 64)

example : (keystreamBlock #v[0, 0, 0, 0, 0, 0, 0, 0, 0, 0, 0, 0]).take 8 =
    [0x76, 0xb8, 0xe0, 0xad, 0xa0, 0xf1, 0x3d, 0x90] := by
  decide +kernel

@[simp] theorem length_keystreamBlock (j : Vector UInt32 12) : (keystreamBlock j).length = 64 := by
  simp [keystreamBlock, List.length_flatMap]

/-! ### The block counter

`input[8]` and `input[9]` are one 64-bit counter (`counterOf`); `withCounter j c` puts `c`, modulo
`2 ^ 64`, in its place. The carry of `nextCounter` is the addition of one to it. -/

/-- The block counter: `input[8]` the low word, `input[9]` the high one. -/
def counterOf (j : Vector UInt32 12) : ℕ :=
  j[8].toNat + 2 ^ 32 * j[9].toNat

/-- The words `j` with the block counter set to `c` modulo `2 ^ 64`. -/
def withCounter (j : Vector UInt32 12) (c : ℕ) : Vector UInt32 12 :=
  (j.set 8 (UInt32.ofNat c)).set 9 (UInt32.ofNat (c / 2 ^ 32))

/-- Block `k` of the keystream from the words `j`: the counter advanced by `k`. -/
def keyBlock (j : Vector UInt32 12) (k : ℕ) : List UInt8 :=
  keystreamBlock (withCounter j (counterOf j + k))

theorem nextCounter_eq (j : Vector UInt32 12) : nextCounter j = withCounter j (counterOf j + 1) := by
  have h8 := j[8].toNat_lt
  have hlo : UInt32.ofNat (counterOf j + 1) = j[8] + 1 := by
    simp only [← UInt32.toNat_inj, UInt32.toNat_ofNat', UInt32.toNat_add, UInt32.toNat_one, counterOf]
    omega
  -- the carry: the low word wraps to zero exactly when it was `2 ^ 32 - 1`
  have hhi : UInt32.ofNat ((counterOf j + 1) / 2 ^ 32) =
      if j[8] + 1 = 0 then j[9] + 1 else j[9] := by
    have h9 := j[9].toNat_lt
    split_ifs with hc <;>
    · simp only [← UInt32.toNat_inj, UInt32.toNat_ofNat', UInt32.toNat_add, UInt32.toNat_one, UInt32.toNat_zero,
        counterOf] at hc ⊢
      omega
  rw [nextCounter, withCounter, hlo, hhi]

@[simp] theorem counterOf_withCounter (j : Vector UInt32 12) (c : ℕ) :
    counterOf (withCounter j c) = c % 2 ^ 64 := by
  simp [counterOf, withCounter, UInt32.toNat_ofNat']
  omega

@[simp] theorem withCounter_withCounter (j : Vector UInt32 12) (c d : ℕ) :
    withCounter (withCounter j c) d = withCounter j d := by
  apply Vector.ext
  intro i hi
  simp only [withCounter, Vector.getElem_set]
  split_ifs <;> rfl

theorem withCounter_mod (j : Vector UInt32 12) (c : ℕ) :
    withCounter j (c % 2 ^ 64) = withCounter j c := by
  have h₁ : UInt32.ofNat (c % 2 ^ 64) = UInt32.ofNat c := by
    simp only [← UInt32.toNat_inj, UInt32.toNat_ofNat']
    omega
  have h₂ : UInt32.ofNat (c % 2 ^ 64 / 2 ^ 32) = UInt32.ofNat (c / 2 ^ 32) := by
    simp only [← UInt32.toNat_inj, UInt32.toNat_ofNat']
    omega
  rw [withCounter, withCounter, h₁, h₂]

theorem withCounter_counterOf (j : Vector UInt32 12) : withCounter j (counterOf j) = j := by
  have h8 := j[8].toNat_lt
  have h9 := j[9].toNat_lt
  have hlo : UInt32.ofNat (counterOf j) = j[8] := by
    simp only [← UInt32.toNat_inj, UInt32.toNat_ofNat', counterOf]
    omega
  have hhi : UInt32.ofNat (counterOf j / 2 ^ 32) = j[9] := by
    simp only [← UInt32.toNat_inj, UInt32.toNat_ofNat', counterOf]
    omega
  rw [withCounter, hlo, hhi, Vector.set_getElem_self, Vector.set_getElem_self]

/-- Setting the counter to `c` and then advancing it by `a` sets it to `c + a`. -/
theorem withCounter_add (j : Vector UInt32 12) (c a : ℕ) :
    withCounter (withCounter j c) (counterOf (withCounter j c) + a) = withCounter j (c + a) := by
  rw [counterOf_withCounter, withCounter_withCounter, ← withCounter_mod j (c % 2 ^ 64 + a),
    ← withCounter_mod j (c + a), Nat.mod_add_mod]

@[simp] theorem length_keyBlock (j : Vector UInt32 12) (k : ℕ) : (keyBlock j k).length = 64 :=
  length_keystreamBlock _

theorem keyBlock_withCounter (j : Vector UInt32 12) (a k : ℕ) :
    keyBlock (withCounter j (counterOf j + a)) k = keyBlock j (a + k) := by
  rw [keyBlock, withCounter_add, keyBlock, Nat.add_assoc]

@[simp] theorem keyBlock_zero (j : Vector UInt32 12) : keyBlock j 0 = keystreamBlock j := by
  rw [keyBlock, Nat.add_zero, withCounter_counterOf]

/-! ### `Keystream` and `Crypt` -/

/-- **`Keystream` writes the blocks of the counter.** `blocks` blocks are blocks `0 … blocks - 1`
of the keystream from the input words, and the counter is advanced by `blocks`, carrying into
`input[9]` and wrapping at `2 ^ 64`. -/
theorem Keystream_eq (s : ChaCha20Aligned) (blocks : ℕ) :
    s.Keystream blocks = ((List.range blocks).flatMap (keyBlock s.input),
      ⟨withCounter s.input (counterOf s.input + blocks)⟩) := by
  induction blocks generalizing s with
  | zero => simp [Keystream, withCounter_counterOf]
  | succ b ih =>
    -- the first block, then the rest from the state one block on
    have hrest : keyBlock (withCounter s.input (counterOf s.input + 1)) =
        fun k => keyBlock s.input (k + 1) :=
      funext fun k => by rw [keyBlock_withCounter, Nat.add_comm]
    simp only [Keystream, ih, nextCounter_eq, withCounter_add, hrest, List.range_succ_eq_map,
      List.flatMap_cons, List.flatMap_map, keyBlock_zero, Nat.succ_eq_add_one, Nat.add_assoc]
    rw [Nat.add_comm 1 b]

theorem length_Keystream (s : ChaCha20Aligned) (blocks : ℕ) :
    (s.Keystream blocks).1.length = 64 * blocks := by
  simp [Keystream_eq, List.length_flatMap, keyBlock, Nat.mul_comm]

/-- One block of `Crypt` XORs the block's keystream into the message's first 64 bytes. -/
theorem cryptBlock_eq (j : Vector UInt32 12) {m : List UInt8} (hm : 64 ≤ m.length) :
    cryptBlock j m = List.zipWith (· ^^^ ·) (m.take 64) (keystreamBlock j) := by
  -- word `i` of the message is its block `i` of four bytes
  have hword : ∀ i, writeLE32 ((blockWords j).toList.getD i 0 ^^^
      readLE32 (m.getD (4 * i) 0) (m.getD (4 * i + 1) 0) (m.getD (4 * i + 2) 0)
        (m.getD (4 * i + 3) 0)) =
      List.zipWith (· ^^^ ·) (writeLE32 ((blockWords j).toList.getD i 0))
        (BlockStream.chunk 4 m i) := by
    intro i
    rw [writeLE32_xor, writeLE32_readLE32]
    rfl
  rw [cryptBlock, List.flatMap_congr fun i _ => hword i,
    BlockStream.flatMap_zipWith _ _ _ (fun _ => by simp), ← keystreamBlock,
    BlockStream.flatMap_chunk 4 hm, List.zipWith_comm]
  simp only [UInt8.xor_comm]

/-- The loop of `Crypt` over `blocks` whole blocks XORs the keystream of as many blocks into its
input, and leaves the state `Keystream` leaves. -/
theorem cryptLoop_eq (s : ChaCha20Aligned) {m : List UInt8} {blocks : ℕ}
    (hm : m.length = 64 * blocks) :
    s.cryptLoop m blocks = (List.zipWith (· ^^^ ·) m (s.Keystream blocks).1, (s.Keystream blocks).2) := by
  induction blocks generalizing s m with
  | zero =>
    rw [Nat.mul_zero, List.length_eq_zero_iff] at hm
    simp [cryptLoop, Keystream, hm]
  | succ b ih =>
    -- the first block, then the loop over the rest of the message
    have hrest : (m.drop 64).length = 64 * b := by
      rw [List.length_drop, hm]
      omega
    have hfirst : (m.take 64).length = (keystreamBlock s.input).length := by
      simp [hm]
    simp only [cryptLoop, Keystream, ih _ hrest, cryptBlock_eq _ (show 64 ≤ m.length by omega),
      ← List.zipWith_append hfirst, List.take_append_drop]

/-- **`Crypt` is the keystream XORed in.** On whole blocks, `Crypt` XORs its input with the
keystream `Keystream` makes for as many blocks, and leaves the same state. -/
theorem Crypt_eq (s : ChaCha20Aligned) {in_bytes : List UInt8} {blocks : ℕ}
    (h : in_bytes.length = 64 * blocks) :
    s.Crypt in_bytes =
      (List.zipWith (· ^^^ ·) in_bytes (s.Keystream blocks).1, (s.Keystream blocks).2) := by
  rw [Crypt, h, Nat.mul_div_cancel_left _ (by norm_num), cryptLoop_eq s h]

/-- After `Seek` the stream starts at block `block_counter` of the nonce: the counter is
`block_counter` in the low word and the nonce's first part in the high one. -/
theorem counterOf_Seek (s : ChaCha20Aligned) (nonce : UInt32 × UInt64) (block_counter : UInt32) :
    counterOf (s.Seek nonce block_counter).input = block_counter.toNat + 2 ^ 32 * nonce.1.toNat := by
  simp [counterOf, ChaCha20Aligned.Seek]

/-- **The block counter carries into the nonce.** After `Seek` and `blocks` blocks of keystream,
`input[8]` is `block_counter + blocks` modulo `2 ^ 32`, and `input[9]`, which `Seek` set to
`nonce.first`, has gained the carries: after 256 GiB the block counter overflows and
`nonce.first` is incremented. -/
theorem Seek_Keystream_overflow (s : ChaCha20Aligned) (nonce : UInt32 × UInt64)
    (block_counter : UInt32) (blocks : ℕ) :
    ((s.Seek nonce block_counter).Keystream blocks).2.input[8] =
        block_counter + UInt32.ofNat blocks ∧
      ((s.Seek nonce block_counter).Keystream blocks).2.input[9] =
        nonce.1 + UInt32.ofNat ((block_counter.toNat + blocks) / 2 ^ 32) := by
  have hb := block_counter.toNat_lt
  have hn := nonce.1.toNat_lt
  rw [Keystream_eq, counterOf_Seek]
  simp [withCounter, ← UInt32.toNat_inj, UInt32.toNat_add, UInt32.toNat_ofNat']
  omega

section Stream

variable {j : Vector UInt32 12} {s : ChaCha20Aligned} {k : ℕ}

/-- At block `k` of the stream of `j`, `Keystream` of `blocks` blocks is the stream's window from
block `k` on, and the cipher moves on to block `k + blocks`. -/
theorem Keystream_window (hs : s.input = withCounter j (counterOf j + k)) (blocks : ℕ) :
    (s.Keystream blocks).1 = BlockStream.window 64 (keyBlock j) (64 * k) (64 * blocks) ∧
      (s.Keystream blocks).2.input = withCounter j (counterOf j + (k + blocks)) := by
  have hrun : keyBlock s.input = fun i => keyBlock j (k + i) :=
    funext fun i => by rw [hs, keyBlock_withCounter]
  rw [Keystream_eq, hs, withCounter_add, Nat.add_assoc, ← hs, hrun,
    BlockStream.window_blocks (length_keyBlock j)]
  exact ⟨rfl, rfl⟩

end Stream

end ChaCha20Aligned

namespace ChaCha20Aligned

/-- `ChaCha20Aligned(key)`: `SetKey(key)`. -/
def ofKey (key : Vector UInt8 32) : ChaCha20Aligned :=
  SetKey key

end ChaCha20Aligned

/-! ### `ChaCha20` -/

/-- `ChaCha20`: the aligned cipher, the last block it made (`m_buffer`), and how many bytes at the
end of that block are not used yet (`m_bufleft`, never the whole block). -/
structure ChaCha20 where
  m_aligned : ChaCha20Aligned
  m_buffer : Vector UInt8 64
  m_bufleft : ℕ
  bufleft_lt : m_bufleft < 64

namespace ChaCha20

open ChaCha20Aligned (counterOf withCounter keyBlock)

/-- `ChaCha20(key)`: the aligned cipher keyed, nothing left in the buffer, whose bytes are
whatever the memory held. -/
def ofKey (key : Vector UInt8 32) (m_buffer : Vector UInt8 64) : ChaCha20 :=
  ⟨ChaCha20Aligned.ofKey key, m_buffer, 0, by norm_num⟩

/-- `SetKey`: the key set, the buffer emptied and wiped. -/
def SetKey (_w : ChaCha20) (key : Vector UInt8 32) : ChaCha20 :=
  ⟨ChaCha20Aligned.SetKey key, Vector.replicate 64 0, 0, by norm_num⟩

/-- `Seek`: the aligned cipher seeked, the buffer emptied. -/
def Seek (w : ChaCha20) (nonce : UInt32 × UInt64) (block_counter : UInt32) : ChaCha20 :=
  ⟨w.m_aligned.Seek nonce block_counter, w.m_buffer, 0, by norm_num⟩

/-- `m_bufleft -= reuse`. -/
def consume (w : ChaCha20) (reuse : ℕ) : ChaCha20 :=
  ⟨w.m_aligned, w.m_buffer, w.m_bufleft - reuse, by have := w.bufleft_lt; omega⟩

/-- `m_aligned.Keystream(m_buffer)` and `m_bufleft = BLOCKLEN - n`: the next block in the buffer,
its first `n` bytes used. -/
def refill (w : ChaCha20) (n : ℕ) (hn : n ≠ 0) : ChaCha20 :=
  ⟨(w.m_aligned.Keystream 1).2,
    ⟨(w.m_aligned.Keystream 1).1.toArray, by simp [ChaCha20Aligned.length_Keystream]⟩,
    64 - n, by omega⟩

/-- The first part of `Keystream`, `if (m_bufleft)`: the bytes left of the last block, at most
`n`. Returns them, the state, and how many bytes are still to come. -/
def reuseKeystream (w : ChaCha20) (n : ℕ) : List UInt8 × ChaCha20 × ℕ :=
  if w.m_bufleft ≠ 0 then
    let reuse := min w.m_bufleft n
    ((w.m_buffer.toList.drop (64 - w.m_bufleft)).take reuse, w.consume reuse, n - reuse)
  else ([], w, n)

/-- The second part, `if (out.size() >= BLOCKLEN)`: whole blocks from the aligned cipher. -/
def blocksKeystream (w : ChaCha20) (n : ℕ) : List UInt8 × ChaCha20 × ℕ :=
  if n ≥ 64 then
    let blocks := n / 64
    let (out, a) := w.m_aligned.Keystream blocks
    (out, ⟨a, w.m_buffer, w.m_bufleft, w.bufleft_lt⟩, n - blocks * 64)
  else ([], w, n)

/-- The last part, `if (!out.empty())`: the next block into the buffer, its first `n` bytes out. -/
def tailKeystream (w : ChaCha20) (n : ℕ) : List UInt8 × ChaCha20 :=
  if hn : n ≠ 0 then
    let w := w.refill n hn
    (w.m_buffer.toList.take n, w)
  else ([], w)

/-- `Keystream` of `n` bytes. -/
def Keystream (w : ChaCha20) (n : ℕ) : List UInt8 × ChaCha20 :=
  if n = 0 then ([], w) else
  let (out₁, w, n) := w.reuseKeystream n
  let (out₂, w, n) := w.blocksKeystream n
  let (out₃, w) := w.tailKeystream n
  (out₁ ++ out₂ ++ out₃, w)

/-- The first part of `Crypt`: `output[i] = input[i] ^ m_buffer[BLOCKLEN - m_bufleft + i]` for the
bytes left of the last block. Returns the output, the state and the input still to come. -/
def reuseCrypt (w : ChaCha20) (input : List UInt8) : List UInt8 × ChaCha20 × List UInt8 :=
  if w.m_bufleft ≠ 0 then
    let reuse := min w.m_bufleft input.length
    ((List.range reuse).map fun i =>
        input.getD i 0 ^^^ w.m_buffer.toList.getD (64 - w.m_bufleft + i) 0,
      w.consume reuse, input.drop reuse)
  else ([], w, input)

/-- The second part: whole blocks through the aligned `Crypt`. -/
def blocksCrypt (w : ChaCha20) (input : List UInt8) : List UInt8 × ChaCha20 × List UInt8 :=
  if input.length ≥ 64 then
    let blocks := input.length / 64
    let (out, a) := w.m_aligned.Crypt (input.take (blocks * 64))
    (out, ⟨a, w.m_buffer, w.m_bufleft, w.bufleft_lt⟩, input.drop (blocks * 64))
  else ([], w, input)

/-- The last part: the next block into the buffer, `output[i] = input[i] ^ m_buffer[i]`. -/
def tailCrypt (w : ChaCha20) (input : List UInt8) : List UInt8 × ChaCha20 :=
  if hn : input.length ≠ 0 then
    let w := w.refill input.length hn
    ((List.range input.length).map fun i => input.getD i 0 ^^^ w.m_buffer.toList.getD i 0, w)
  else ([], w)

/-- `Crypt` of `input`. -/
def Crypt (w : ChaCha20) (input : List UInt8) : List UInt8 × ChaCha20 :=
  if input.length = 0 then ([], w) else
  let (out₁, w, input) := w.reuseCrypt input
  let (out₂, w, input) := w.blocksCrypt input
  let (out₃, w) := w.tailCrypt input
  (out₁ ++ out₂ ++ out₃, w)

/-! ### The parts of a request -/

section Parts

variable (w : ChaCha20)

/-- The bytes of the buffer not used yet: its last `m_bufleft`. -/
def left : List UInt8 :=
  w.m_buffer.toList.drop (64 - w.m_bufleft)

@[simp] theorem length_left : w.left.length = w.m_bufleft := by
  have := w.bufleft_lt
  simp only [left, Vector.length_toList, List.length_drop]
  omega

@[simp] theorem consume_zero : w.consume 0 = w := rfl

/-- `if (m_bufleft)` only saves work: with nothing left the part takes nothing. -/
theorem reuseKeystream_eq (n : ℕ) :
    w.reuseKeystream n =
      (w.left.take (min w.m_bufleft n), w.consume (min w.m_bufleft n), n - min w.m_bufleft n) := by
  unfold reuseKeystream
  split_ifs with h
  · rfl
  · rw [not_not] at h
    simp [h, left]

/-- `if (out.size() >= BLOCKLEN)` only saves work: below a block the part takes nothing. -/
theorem blocksKeystream_eq (n : ℕ) :
    w.blocksKeystream n = ((w.m_aligned.Keystream (n / 64)).1,
      ⟨(w.m_aligned.Keystream (n / 64)).2, w.m_buffer, w.m_bufleft, w.bufleft_lt⟩, n % 64) := by
  unfold blocksKeystream
  split_ifs with h
  · simp only [Nat.mod_eq_sub_div_mul]
  · have h0 : n / 64 = 0 := Nat.div_eq_of_lt (by omega)
    simp [h0, ChaCha20Aligned.Keystream, Nat.mod_eq_of_lt (show n < 64 by omega)]

@[simp] theorem reuseKeystream_rest (n : ℕ) :
    (w.reuseKeystream n).2.2 = n - min w.m_bufleft n := by
  rw [reuseKeystream_eq]

@[simp] theorem bufleft_reuseKeystream (n : ℕ) :
    (w.reuseKeystream n).2.1.m_bufleft = w.m_bufleft - min w.m_bufleft n := by
  rw [reuseKeystream_eq]
  rfl

@[simp] theorem blocksKeystream_rest (n : ℕ) : (w.blocksKeystream n).2.2 = n % 64 := by
  rw [blocksKeystream_eq]

@[simp] theorem bufleft_blocksKeystream (n : ℕ) :
    (w.blocksKeystream n).2.1.m_bufleft = w.m_bufleft := by
  rw [blocksKeystream_eq]

@[simp] theorem length_reuseKeystream (n : ℕ) :
    (w.reuseKeystream n).1.length = min w.m_bufleft n := by
  rw [reuseKeystream_eq, List.length_take, length_left]
  omega

@[simp] theorem length_blocksKeystream (n : ℕ) :
    (w.blocksKeystream n).1.length = 64 * (n / 64) := by
  rw [blocksKeystream_eq, ChaCha20Aligned.length_Keystream]

theorem length_tailKeystream {n : ℕ} (h : n ≤ 64) : (w.tailKeystream n).1.length = n := by
  unfold tailKeystream
  split_ifs with hn
  · simp [h]
  · rw [not_not] at hn
    simp [hn]

end Parts

/-- `Keystream` returns as many bytes as asked for. -/
theorem length_Keystream (w : ChaCha20) (n : ℕ) : (w.Keystream n).1.length = n := by
  by_cases h0 : n = 0
  · simp [Keystream, h0]
  rcases e₁ : w.reuseKeystream n with ⟨k₁, w₁, n₁⟩
  rcases e₂ : w₁.blocksKeystream n₁ with ⟨k₂, w₂, n₂⟩
  have hk₁ : k₁.length = min w.m_bufleft n := by simpa [e₁] using length_reuseKeystream w n
  have hn₁ : n₁ = n - min w.m_bufleft n := by simpa [e₁] using reuseKeystream_rest w n
  have hk₂ : k₂.length = 64 * (n₁ / 64) := by simpa [e₂] using length_blocksKeystream w₁ n₁
  have hn₂ : n₂ = n₁ % 64 := by simpa [e₂] using blocksKeystream_rest w₁ n₁
  simp only [Keystream, if_neg h0, e₁, e₂, List.length_append, hk₁, hk₂,
    length_tailKeystream w₂ (show n₂ ≤ 64 by omega)]
  omega

/-! ### `Crypt` is `Keystream` XORed in -/

/-- The loop `output[i] = input[i] ^ buf[o + i]` over `i < n`, within both. -/
theorem map_range_xor {input buf : List UInt8} {o n : ℕ} (h₁ : n ≤ input.length)
    (h₂ : o + n ≤ buf.length) :
    (List.range n).map (fun i => input.getD i 0 ^^^ buf.getD (o + i) 0) =
      List.zipWith (· ^^^ ·) input ((buf.drop o).take n) := by
  apply List.ext_getElem (by simp; omega)
  intro i hi _
  simp only [List.length_map, List.length_range] at hi
  simp [List.getD_eq_getElem?_getD, show i < input.length by omega,
    show o + i < buf.length by omega]

section CryptParts

variable (w : ChaCha20)

theorem reuseCrypt_eq (input : List UInt8) :
    w.reuseCrypt input = (List.zipWith (· ^^^ ·) input (w.reuseKeystream input.length).1,
      (w.reuseKeystream input.length).2.1, input.drop (min w.m_bufleft input.length)) := by
  rw [reuseKeystream_eq]
  unfold reuseCrypt
  split_ifs with h
  · have := w.bufleft_lt
    dsimp only
    rw [map_range_xor (Nat.min_le_right _ _) (by simp; omega)]
    rfl
  · rw [not_not] at h
    simp [h]

theorem blocksCrypt_eq (input : List UInt8) :
    w.blocksCrypt input = (List.zipWith (· ^^^ ·) input (w.blocksKeystream input.length).1,
      (w.blocksKeystream input.length).2.1, input.drop (64 * (input.length / 64))) := by
  rw [blocksKeystream_eq]
  unfold blocksCrypt
  split_ifs with h
  · -- the aligned `Crypt` of the whole blocks uses as much keystream as there is input
    have hlen : (input.take (input.length / 64 * 64)).length = 64 * (input.length / 64) := by
      simp only [List.length_take]
      omega
    have hks : (w.m_aligned.Keystream (input.length / 64)).1.length ≤ input.length / 64 * 64 := by
      rw [ChaCha20Aligned.length_Keystream, Nat.mul_comm]
    dsimp only
    rw [ChaCha20Aligned.Crypt_eq _ hlen, XorCipher.zipWith_take_left hks,
      Nat.mul_comm 64 (input.length / 64)]
  · have h0 : input.length / 64 = 0 := Nat.div_eq_of_lt (by omega)
    simp [h0, ChaCha20Aligned.Keystream]

theorem tailCrypt_eq {input : List UInt8} (h : input.length ≤ 64) :
    w.tailCrypt input = (List.zipWith (· ^^^ ·) input (w.tailKeystream input.length).1,
      (w.tailKeystream input.length).2) := by
  unfold tailCrypt tailKeystream
  split_ifs with hn
  · have hxor : (List.range input.length).map (fun i =>
        input.getD i 0 ^^^ (w.refill input.length hn).m_buffer.toList.getD (0 + i) 0) =
        List.zipWith (· ^^^ ·) input
          (((w.refill input.length hn).m_buffer.toList.drop 0).take input.length) :=
      map_range_xor le_rfl (by simpa using h)
    simp only [Nat.zero_add, List.drop_zero] at hxor
    dsimp only
    rw [hxor]
  · rw [not_not, List.length_eq_zero_iff] at hn
    simp [hn]

end CryptParts

/-- `Crypt` XORs its input with the bytes `Keystream` returns for a request of the same length,
part by part, and leaves the cipher in the same state. -/
theorem Crypt_keyed : XorCipher.Keyed Keystream Crypt := by
  intro w input
  by_cases h0 : input.length = 0
  · simp [Crypt, Keystream, h0]
  rcases e₁ : w.reuseKeystream input.length with ⟨k₁, w₁, n₁⟩
  have hk₁ : k₁.length = min w.m_bufleft input.length := by
    simpa [e₁] using length_reuseKeystream w input.length
  have hn₁ : n₁ = input.length - min w.m_bufleft input.length := by
    simpa [e₁] using reuseKeystream_rest w input.length
  rcases e₂ : w₁.blocksKeystream n₁ with ⟨k₂, w₂, n₂⟩
  have hk₂ : k₂.length = 64 * (n₁ / 64) := by simpa [e₂] using length_blocksKeystream w₁ n₁
  have hn₂ : n₂ = n₁ % 64 := by simpa [e₂] using blocksKeystream_rest w₁ n₁
  rcases e₃ : w₂.tailKeystream n₂ with ⟨k₃, w₃⟩
  -- each part of `Crypt` XORs in what the same part of `Keystream` serves
  obtain ⟨m, hm⟩ : ∃ m, m = min w.m_bufleft input.length := ⟨_, rfl⟩
  have hc₁ : w.reuseCrypt input = (List.zipWith (· ^^^ ·) input k₁, w₁, input.drop m) := by
    rw [reuseCrypt_eq, e₁, ← hm]
  have hc₂ : w₁.blocksCrypt (input.drop m) = (List.zipWith (· ^^^ ·) (input.drop m) k₂, w₂,
      (input.drop m).drop (64 * (n₁ / 64))) := by
    have hi₁ : (input.drop m).length = n₁ := by
      simp only [List.length_drop]
      omega
    rw [blocksCrypt_eq, hi₁, e₂]
  have hi₂ : ((input.drop m).drop (64 * (n₁ / 64))).length = n₂ := by
    simp only [List.length_drop]
    omega
  have hc₃ : w₂.tailCrypt ((input.drop m).drop (64 * (n₁ / 64))) =
      (List.zipWith (· ^^^ ·) ((input.drop m).drop (64 * (n₁ / 64))) k₃, w₃) := by
    rw [tailCrypt_eq w₂ (by omega), hi₂, e₃]
  simp only [Crypt, Keystream, if_neg h0, hc₁, hc₂, hc₃, e₁, e₂, e₃]
  rw [List.append_assoc, List.append_assoc, XorCipher.zipWith_append_right (by omega),
    XorCipher.zipWith_append_right (by simp only [List.length_drop]; omega), hk₁, hk₂, hm]

/-- **`Crypt` is `Keystream` XORed in.** From any state, `Crypt` XORs its input with exactly the
bytes `Keystream` would return for a request of the same length, and leaves the cipher (aligned
state, buffer and `m_bufleft`) as `Keystream` would. -/
theorem Crypt_eq_Keystream (w : ChaCha20) (input : List UInt8) :
    w.Crypt input =
      (List.zipWith (· ^^^ ·) input (w.Keystream input.length).1, (w.Keystream input.length).2) :=
  Crypt_keyed w input

/-! ### What a cipher has served -/

/-- `w` has served the first `p` bytes of the keystream of the words `j`: the aligned cipher stands
at the block after the buffer's, and the bytes left in the buffer are the next ones of the
stream. -/
structure Serves (j : Vector UInt32 12) (w : ChaCha20) (p : ℕ) : Prop where
  aligned : ∃ k, p + w.m_bufleft = 64 * k ∧ w.m_aligned.input = withCounter j (counterOf j + k)
  left : w.left = BlockStream.window 64 (keyBlock j) p w.m_bufleft

section Serves

variable {j : Vector UInt32 12} {w : ChaCha20} {p : ℕ}

theorem reuse_serves (h : Serves j w p) (n : ℕ) :
    (w.reuseKeystream n).1 = BlockStream.window 64 (keyBlock j) p (min w.m_bufleft n) ∧
      Serves j (w.reuseKeystream n).2.1 (p + min w.m_bufleft n) := by
  obtain ⟨⟨k, hk, ha⟩, hleft⟩ := h
  have hr : min w.m_bufleft n ≤ w.m_bufleft := Nat.min_le_left _ _
  -- the bytes left lose the `reuse` first ones
  have hdrop : (w.consume (min w.m_bufleft n)).left = w.left.drop (min w.m_bufleft n) := by
    have := w.bufleft_lt
    simp only [left, consume, List.drop_drop]
    congr 1
    omega
  rw [reuseKeystream_eq]
  refine ⟨by rw [hleft, BlockStream.take_window _ _ hr], ⟨k, ?_, ha⟩, ?_⟩
  · simp only [consume]
    omega
  · rw [hdrop, hleft, BlockStream.drop_window _ _ hr]
    rfl

theorem blocks_serves (h : Serves j w p) (n : ℕ) (h0 : w.m_bufleft = 0 ∨ n < 64) :
    (w.blocksKeystream n).1 = BlockStream.window 64 (keyBlock j) p (64 * (n / 64)) ∧
      Serves j (w.blocksKeystream n).2.1 (p + 64 * (n / 64)) := by
  obtain ⟨⟨k, hk, ha⟩, hleft⟩ := h
  obtain ⟨hks, hnext⟩ := ChaCha20Aligned.Keystream_window ha (n / 64)
  -- either the buffer is empty and the blocks come next, or there are no whole blocks
  have hp : w.m_bufleft = 0 ∨ n / 64 = 0 := h0.imp id Nat.div_eq_of_lt
  rw [blocksKeystream_eq]
  refine ⟨?_, ⟨k + n / 64, ?_, hnext⟩, ?_⟩
  · rcases hp with hp | hp
    · rw [hks, show p = 64 * k by omega]
    · simp [hp, ChaCha20Aligned.Keystream]
  · dsimp only
    omega
  · -- the buffer is untouched
    rcases hp with hp | hp
    · simp [left, hp]
    · rw [hp, Nat.mul_zero, Nat.add_zero]
      exact hleft

theorem tail_serves (h : Serves j w p) {n : ℕ} (h0 : w.m_bufleft = 0 ∨ n = 0) (hn : n < 64) :
    (w.tailKeystream n).1 = BlockStream.window 64 (keyBlock j) p n ∧
      Serves j (w.tailKeystream n).2 (p + n) := by
  rcases Nat.eq_zero_or_pos n with rfl | hpos
  · simpa [tailKeystream] using h
  have hn0 : n ≠ 0 := by omega
  obtain ⟨⟨k, hk, ha⟩, -⟩ := h
  obtain ⟨hks, hnext⟩ := ChaCha20Aligned.Keystream_window ha 1
  rw [h0.resolve_right hn0, Nat.add_zero] at hk
  -- the new block is the stream's block `k`: its first `n` bytes go out, the rest stays
  have hbuf : (w.refill n hn0).m_buffer.toList = BlockStream.window 64 (keyBlock j) p 64 := by
    simp [refill, hks, hk]
  simp only [tailKeystream, dif_pos hn0]
  refine ⟨by rw [hbuf, BlockStream.take_window _ _ hn.le], ⟨k + 1, ?_, hnext⟩, ?_⟩
  · simp only [refill]
    omega
  · show (w.refill n hn0).m_buffer.toList.drop (64 - (64 - n)) = _
    rw [hbuf, show 64 - (64 - n) = n by omega, BlockStream.drop_window _ _ hn.le]
    rfl

/-- **A request serves the next bytes of the stream.** `Keystream` of `n` bytes returns the `n`
bytes of the stream after the `p` already served, and has then served `p + n`. -/
theorem Keystream_serves (h : Serves j w p) (n : ℕ) :
    (w.Keystream n).1 = BlockStream.window 64 (keyBlock j) p n ∧
      Serves j (w.Keystream n).2 (p + n) := by
  rcases Nat.eq_zero_or_pos n with rfl | hn
  · simpa [Keystream] using h
  -- the three parts, each serving from where the one before stopped
  obtain ⟨h₁, hs₁⟩ := reuse_serves h n
  rcases e₁ : w.reuseKeystream n with ⟨out₁, w₁, n₁⟩
  have hn₁ : n₁ = n - min w.m_bufleft n := by simpa [e₁] using reuseKeystream_rest w n
  -- after the bytes left of the last block, the buffer is empty or the request is done
  have hb₁ : w₁.m_bufleft = 0 ∨ n₁ = 0 := by
    have := bufleft_reuseKeystream w n
    rw [e₁] at this
    dsimp only at this
    omega
  rw [e₁] at h₁ hs₁
  dsimp only at h₁ hs₁
  obtain ⟨h₂, hs₂⟩ := blocks_serves hs₁ n₁ (hb₁.imp_right (by omega))
  rcases e₂ : w₁.blocksKeystream n₁ with ⟨out₂, w₂, n₂⟩
  have hn₂ : n₂ = n₁ % 64 := by simpa [e₂] using blocksKeystream_rest w₁ n₁
  have hb₂ : w₂.m_bufleft = w₁.m_bufleft := by simpa [e₂] using bufleft_blocksKeystream w₁ n₁
  rw [e₂] at h₂ hs₂
  dsimp only at h₂ hs₂
  obtain ⟨h₃, hs₃⟩ := tail_serves hs₂ (n := n₂) (by omega) (by omega)
  rcases e₃ : w₂.tailKeystream n₂ with ⟨out₃, w₃⟩
  rw [e₃] at h₃ hs₃
  dsimp only at h₃ hs₃
  -- the three windows are one
  have hsum : min w.m_bufleft n + 64 * (n₁ / 64) + n₂ = n := by omega
  simp only [Keystream, if_neg (show n ≠ 0 by omega), e₁, e₂, e₃]
  rw [h₁, h₂, h₃, ← BlockStream.window_add, Nat.add_assoc p, ← BlockStream.window_add, hsum]
  rw [Nat.add_assoc p, Nat.add_assoc p, hsum] at hs₃
  exact ⟨rfl, hs₃⟩

end Serves

/-- The state after `Seek` has served nothing of the stream of its input words. -/
theorem Seek_serves (w : ChaCha20) (nonce : UInt32 × UInt64) (block_counter : UInt32) :
    Serves (w.m_aligned.Seek nonce block_counter).input (w.Seek nonce block_counter) 0 :=
  ⟨⟨0, rfl, (ChaCha20Aligned.withCounter_counterOf _).symm⟩, by simp [left, Seek]⟩

/-- A new cipher has served nothing of the stream of its key, whatever its buffer held. -/
theorem ofKey_serves (key : Vector UInt8 32) (m_buffer : Vector UInt8 64) :
    Serves (ChaCha20Aligned.ofKey key).input (ofKey key m_buffer) 0 :=
  ⟨⟨0, rfl, (ChaCha20Aligned.withCounter_counterOf _).symm⟩, by simp [left, ofKey]⟩

/-! ### Runs of requests -/

/-- A call on the cipher: `Keystream` of `n` bytes, or `Crypt` of `input`. -/
inductive Request
  | keystream (n : ℕ)
  | crypt (input : List UInt8)

namespace Request

/-- How many keystream bytes a request uses. -/
def length : Request → ℕ
  | keystream n => n
  | crypt input => input.length

/-- The answer to a request, from the keystream bytes it uses. -/
def answer : Request → List UInt8 → List UInt8
  | keystream _, ks => ks
  | crypt input, ks => List.zipWith (· ^^^ ·) input ks

end Request

/-- One request on the cipher. -/
def serve (w : ChaCha20) : Request → List UInt8 × ChaCha20
  | .keystream n => w.Keystream n
  | .crypt input => w.Crypt input

/-- Requests on the cipher one after another. -/
def run (w : ChaCha20) : List Request → List (List UInt8) × ChaCha20
  | [] => ([], w)
  | r :: rs =>
    let (out, w) := w.serve r
    let (outs, w) := w.run rs
    (out :: outs, w)

theorem run_cons (w : ChaCha20) (r : Request) (rs : List Request) :
    w.run (r :: rs) = ((w.serve r).1 :: ((w.serve r).2.run rs).1, ((w.serve r).2.run rs).2) :=
  rfl

/-- The answers to requests served one after another from position `p` of a stream whose `n`
bytes from position `q` are `stream q n`. -/
def answers (stream : ℕ → ℕ → List UInt8) (p : ℕ) : List Request → List (List UInt8)
  | [] => []
  | r :: rs => r.answer (stream p r.length) :: answers stream (p + r.length) rs

section Run

variable {j : Vector UInt32 12} {w : ChaCha20} {p : ℕ}

/-- `Crypt` serves the next bytes of the stream as `Keystream` does. -/
theorem Crypt_serves (h : Serves j w p) (input : List UInt8) :
    (w.Crypt input).1 =
        List.zipWith (· ^^^ ·) input (BlockStream.window 64 (keyBlock j) p input.length) ∧
      Serves j (w.Crypt input).2 (p + input.length) := by
  obtain ⟨hks, hs⟩ := Keystream_serves h input.length
  rw [Crypt_keyed w input, hks]
  exact ⟨rfl, hs⟩

theorem serve_serves (h : Serves j w p) (r : Request) :
    (w.serve r).1 = r.answer (BlockStream.window 64 (keyBlock j) p r.length) ∧
      Serves j (w.serve r).2 (p + r.length) := by
  cases r with
  | keystream n => exact Keystream_serves h n
  | crypt input => exact Crypt_serves h input

/-- **A run of requests serves the stream in order.** Whatever the requests and their lengths,
each is answered from the stream's bytes right after those the requests before it used. -/
theorem run_serves (h : Serves j w p) (rs : List Request) :
    (w.run rs).1 = answers (BlockStream.window 64 (keyBlock j)) p rs ∧
      Serves j (w.run rs).2 (p + (rs.map Request.length).sum) := by
  induction rs generalizing w p with
  | nil => exact ⟨rfl, h⟩
  | cons r rs ih =>
    obtain ⟨hr, hs⟩ := serve_serves h r
    obtain ⟨hrs, hs'⟩ := ih hs
    rw [List.map_cons, List.sum_cons, ← Nat.add_assoc]
    rw [run_cons, answers, ← hr, ← hrs]
    exact ⟨rfl, hs'⟩

end Run

/-- **After `Seek`, requests read the keystream of the nonce from the block counter on.** Any
interleaving of `Keystream` and `Crypt` calls of any lengths after `Seek` is answered from one
stream, block `k` of which is the ChaCha20 block with counter `block_counter + 2^32·nonce.1 + k`
(`ChaCha20Aligned.counterOf_Seek`): each `Keystream` returns, and each `Crypt` XORs in, the stream's bytes right
after those used before it. -/
theorem run_Seek (w : ChaCha20) (nonce : UInt32 × UInt64) (block_counter : UInt32)
    (rs : List Request) :
    ((w.Seek nonce block_counter).run rs).1 =
      answers (BlockStream.window 64 (keyBlock (w.m_aligned.Seek nonce block_counter).input)) 0 rs :=
  (run_serves (Seek_serves w nonce block_counter) rs).1

/-! ### Decryption -/

/-- Two ciphers at the same position of the same stream. -/
def SameStream (w₁ w₂ : ChaCha20) : Prop :=
  ∃ j p, Serves j w₁ p ∧ Serves j w₂ p

theorem Keystream_inStep : XorCipher.InStep SameStream Keystream := by
  rintro w₁ w₂ ⟨j, p, h₁, h₂⟩ n
  obtain ⟨e₁, s₁⟩ := Keystream_serves h₁ n
  obtain ⟨e₂, s₂⟩ := Keystream_serves h₂ n
  exact ⟨e₁.trans e₂.symm, j, p + n, s₁, s₂⟩

/-- **`Crypt` decrypts what it encrypted.** Two ciphers made with the same key and seeked to the
same nonce and block counter, whatever their buffers held: the second, run over the chunks the
first made of a plaintext, gives back the plaintext, however it was cut into chunks. -/
theorem decrypt_after_Seek (key : Vector UInt8 32) (buf₁ buf₂ : Vector UInt8 64)
    (nonce : UInt32 × UInt64) (block_counter : UInt32) (ms : List (List UInt8)) :
    (XorCipher.run Crypt ((ofKey key buf₂).Seek nonce block_counter)
      (XorCipher.run Crypt ((ofKey key buf₁).Seek nonce block_counter) ms).1).1 = ms :=
  XorCipher.run_run Crypt_keyed length_Keystream XorCipher.cancels_uint8 Keystream_inStep
    ⟨_, 0, Seek_serves (ofKey key buf₁) nonce block_counter,
      Seek_serves (ofKey key buf₂) nonce block_counter⟩ ms

end ChaCha20

end Tenscoin
