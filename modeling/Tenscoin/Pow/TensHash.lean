import Mathlib
import Tenscoin.Crypto.ChaCha20
import Tenscoin.Primitives.Block

/-!
# TensHash

The proof-of-work hash of this chain (`crypto/tens_pow/tens_hash.cpp`) is a network of threshold
neurons whose weights come from a ChaCha20 keystream. A seed of 32 bytes keys the cipher, and
each matrix is a keystream read from block `0` of its own nonce `(0, to_big_endian(counter))`,
every byte mapped to a weight `0, 0, 1, -1` by its value modulo 4. The input's 256 bits go
through an expansion layer to 1024 neurons, 64 square layers with a residual connection, and a
compression layer back to 256 bits, which are packed into the output. `layer_forward` maps a
bit `b` to `2 b - 1` and fires a neuron when its dot product with its row is positive.

`tens_hash_init` builds the matrices of a seed into a `TensHashContext`, and
`tens_hash_precomputed` runs the network with them, in the context's two working buffers that it
swaps after each layer. The buffers are scratch: the output is `network` of the matrices on the
input's bits, whatever the buffers held before (`tens_hash_precomputed_eq`): a square layer
writes all of its buffer and reads back only what it wrote (`layer_forward_congr`), and the
compression layer writes the part of its buffer that is read. So the miner, which builds the
context once per header and runs it on nonce after nonce, computes the same hash as
`GetPoWHash`, which builds a fresh context for every nonce (`GetPoWHashPrecomputed_eq`; the
seed `GetHash` does not depend on the nonce, so `Pow/GenerateBlock` carries the context from
nonce to nonce).
-/

namespace Tenscoin

namespace TensHash

/-- `TENS_HIDDEN`: the width of the hidden layers. -/
def TENS_HIDDEN : ℕ := 1024

/-- `NUM_HIDDEN_LAYERS`. -/
def NUM_HIDDEN_LAYERS : ℕ := 64

/-- `TENS_IN_SIZE`: the bytes of the input and of the output. -/
def TENS_IN_SIZE : ℕ := 32

/-- `INPUT_BITS`. -/
def INPUT_BITS : ℕ := TENS_IN_SIZE * 8

/-- `to_big_endian`: the eight bytes of `val` in the other order. -/
def to_big_endian (val : UInt64) : UInt64 :=
  ((val &&& 0x00000000000000FF) <<< 56) |||
  ((val &&& 0x000000000000FF00) <<< 40) |||
  ((val &&& 0x0000000000FF0000) <<< 24) |||
  ((val &&& 0x00000000FF000000) <<< 8) |||
  ((val &&& 0x000000FF00000000) >>> 8) |||
  ((val &&& 0x0000FF0000000000) >>> 24) |||
  ((val &&& 0x00FF000000000000) >>> 40) |||
  ((val &&& 0xFF00000000000000) >>> 56)

/-- The weight of a keystream byte: by the byte modulo 4, `0, 0, 1, -1`. -/
def weightOf (b : UInt8) : Int8 :=
  let mod := b % 4
  if mod = 0 ∨ mod = 1 then 0
  else if mod = 2 then 1
  else -1

/-- `generate_dense_matrix`: the `rows * cols` weights, row by row, from the keystream of `seed`
at the nonce `(0, to_big_endian(nonce_counter))` and block `0`. The buffer of the new
`ChaCha20` is not initialised; `Seek` empties it, so its bytes are never read
(`ChaCha20.run_Seek`), and here it holds zeros. Irreducible: a matrix is never to be computed
while terms are compared. -/
@[irreducible] def generate_dense_matrix (rows cols : ℕ) (seed : Vector UInt8 32) (nonce_counter : UInt64) :
    List Int8 :=
  let total := rows * cols
  let nonce : UInt32 × UInt64 := (0, to_big_endian nonce_counter)
  let chacha := (ChaCha20.ofKey seed (Vector.replicate 64 0)).Seek nonce 0
  (chacha.Keystream total).1.map weightOf

/-- `TensHashContext`: the three matrices, row by row (the hidden ones one after the other), and
the two working buffers `state` and `next_state`. -/
structure TensHashContext where
  expansion_mat : List Int8
  hidden_mats : List Int8
  compression_mat : List Int8
  state : List Int8
  next_state : List Int8

/-- `generate_all_matrices`: the expansion matrix at nonce counter `0`, hidden matrix `r` at
`r + 1`, and the compression matrix at `NUM_HIDDEN_LAYERS + 1`. -/
def generate_all_matrices (seed : Vector UInt8 32) : List Int8 × List Int8 × List Int8 :=
  (generate_dense_matrix TENS_HIDDEN INPUT_BITS seed 0,
    (List.range NUM_HIDDEN_LAYERS).flatMap
      (fun r => generate_dense_matrix TENS_HIDDEN TENS_HIDDEN seed (UInt64.ofNat (r + 1))),
    generate_dense_matrix INPUT_BITS TENS_HIDDEN seed (UInt64.ofNat (NUM_HIDDEN_LAYERS + 1)))

/-- `tens_hash_init`: the seed's bytes reversed, the matrices generated from them, and the
working buffers zeroed by `calloc`. The failures of `malloc` are not modelled. -/
def tens_hash_init (seed : Vector UInt8 32) : TensHashContext where
  expansion_mat := (generate_all_matrices seed.reverse).1
  hidden_mats := (generate_all_matrices seed.reverse).2.1
  compression_mat := (generate_all_matrices seed.reverse).2.2
  state := List.replicate TENS_HIDDEN 0
  next_state := List.replicate TENS_HIDDEN 0

/-! ### One layer -/

/-- `x_mapped`: input bit `i` as `2 * input[i] - 1`. -/
def mapInput (in_dim : ℕ) (input : List Int8) : List Int8 :=
  (List.range in_dim).map fun i => Int8.ofInt (2 * (input.getD i 0).toInt - 1)

/-- The sum of output neuron `j` of `layer_forward`: its row's dot product with the mapped input,
plus the mapped input `j` when the layer is square (the residual connection). -/
def neuronSum (matrix : List Int8) (in_dim out_dim : ℕ) (x_mapped : List Int8) (j : ℕ) : ℤ :=
  let row := matrix.drop (j * in_dim)
  let sum := ((List.range in_dim).map fun i => (row.getD i 0).toInt * (x_mapped.getD i 0).toInt).sum
  if in_dim = out_dim then sum + (x_mapped.getD j 0).toInt else sum

/-- `layer_forward`: neuron `j` is `1` when its sum is positive, else `0`. -/
def layer_forward (matrix : List Int8) (in_dim out_dim : ℕ) (input : List Int8) : List Int8 :=
  let x_mapped := mapInput in_dim input
  (List.range out_dim).map fun j => if neuronSum matrix in_dim out_dim x_mapped j > 0 then 1 else 0

/-- A layer's output written to the front of a buffer; the rest of the buffer is kept. -/
def writeOut (out buf : List Int8) : List Int8 :=
  out ++ buf.drop out.length

/-! ### The hash -/

/-- The input's bits, most significant first: `(input_swapped[i] >> (7 - j)) & 1`. -/
def unpackBits (bytes : List UInt8) : List Int8 :=
  bytes.flatMap fun b => (List.range 8).map fun j => ((b >>> (7 - j).toUInt8) &&& 1).toInt8

/-- `pack_bits`: bit `i` set in byte `i / 8` at `1 << (7 - i % 8)` when `bits[i]` is not zero. -/
def pack_bits (bits : List Int8) : List UInt8 :=
  (List.range TENS_IN_SIZE).map fun k =>
    (List.range 8).foldl (fun byte j =>
      if bits.getD (8 * k + j) 0 ≠ 0 then byte ||| ((1 : UInt8) <<< (7 - j).toUInt8) else byte) 0

/-- Hidden layer `r`'s matrix. -/
def hiddenMatrix (hidden_mats : List Int8) (r : ℕ) : List Int8 :=
  hidden_mats.drop (r * TENS_HIDDEN * TENS_HIDDEN)

/-- The loop over the hidden layers: layer `r` reads `state` and writes `next_state`, and the two
are swapped. -/
def hiddenLoop (hidden_mats : List Int8) (buffers : List Int8 × List Int8) :
    List Int8 × List Int8 :=
  (List.range NUM_HIDDEN_LAYERS).foldl (fun (b : List Int8 × List Int8) r =>
    (writeOut (layer_forward (hiddenMatrix hidden_mats r) TENS_HIDDEN TENS_HIDDEN b.1) b.2, b.1))
    buffers

/-- `tens_hash_precomputed`: the output bytes, and the context with its buffers as the layers
left them. -/
def tens_hash_precomputed (input : List UInt8) (ctx : TensHashContext) :
    List UInt8 × TensHashContext :=
  let input_swapped := input.reverse
  -- `memset(ctx->state, 0, TENS_HIDDEN)`, then the input's bits
  let state := unpackBits input_swapped ++ List.replicate (TENS_HIDDEN - INPUT_BITS) 0
  -- the expansion layer, and the swap
  let next_state := writeOut (layer_forward ctx.expansion_mat INPUT_BITS TENS_HIDDEN state)
    ctx.next_state
  let buffers := hiddenLoop ctx.hidden_mats (next_state, state)
  let state := buffers.1
  let next_state := buffers.2
  -- the compression layer writes the first `INPUT_BITS` of `next_state`, with no swap
  let next_state := writeOut (layer_forward ctx.compression_mat TENS_HIDDEN INPUT_BITS state)
    next_state
  let output := pack_bits (next_state.take INPUT_BITS)
  (output.reverse, { ctx with state := state, next_state := next_state })

/-- `tens_hash`: a fresh context for the seed, the input through it, and the context freed. -/
def tens_hash (input : List UInt8) (seed : Vector UInt8 32) : List UInt8 :=
  (tens_hash_precomputed input (tens_hash_init seed)).1

/-! ### The network the matrices define -/

/-- The network of the matrices `e`, `h`, `c` on the bits `x`: the expansion layer, the hidden
layers one after the other, and the compression layer. -/
def network (e h c : List Int8) (x : List Int8) : List Int8 :=
  layer_forward c TENS_HIDDEN INPUT_BITS
    ((List.range NUM_HIDDEN_LAYERS).foldl
      (fun x r => layer_forward (hiddenMatrix h r) TENS_HIDDEN TENS_HIDDEN x)
      (layer_forward e INPUT_BITS TENS_HIDDEN x))

@[simp] theorem length_layer_forward (matrix : List Int8) (in_dim out_dim : ℕ) (input : List Int8) :
    (layer_forward matrix in_dim out_dim input).length = out_dim := by
  simp [layer_forward]

theorem mapInput_take (in_dim : ℕ) (input : List Int8) :
    mapInput in_dim (input.take in_dim) = mapInput in_dim input := by
  refine List.map_congr_left fun i hi => ?_
  rw [List.mem_range] at hi
  simp [List.getD_eq_getElem?_getD, hi]

/-- A layer reads the first `in_dim` entries of its input and nothing else. -/
theorem layer_forward_congr {matrix : List Int8} {in_dim out_dim : ℕ} {x y : List Int8}
    (h : x.take in_dim = y.take in_dim) :
    layer_forward matrix in_dim out_dim x = layer_forward matrix in_dim out_dim y := by
  simp only [layer_forward, ← mapInput_take in_dim x, h, mapInput_take]

theorem take_writeOut {out : List Int8} {n : ℕ} (h : out.length = n) (buf : List Int8) :
    (writeOut out buf).take n = out := by
  rw [writeOut, ← h, List.take_left' rfl]

/-- One hidden layer on the working buffers does what it does on the network's value, as long as
`state` starts with that value. -/
theorem hiddenLoop_foldl (h : List Int8) (rs : List ℕ) :
    ∀ (b : List Int8 × List Int8) (x : List Int8), b.1.take TENS_HIDDEN = x.take TENS_HIDDEN →
      (rs.foldl (fun (b : List Int8 × List Int8) r =>
          (writeOut (layer_forward (hiddenMatrix h r) TENS_HIDDEN TENS_HIDDEN b.1) b.2, b.1))
          b).1.take TENS_HIDDEN =
        (rs.foldl (fun x r => layer_forward (hiddenMatrix h r) TENS_HIDDEN TENS_HIDDEN x) x).take
          TENS_HIDDEN := by
  induction rs with
  | nil => intro b x hb; exact hb
  | cons r rs ih =>
    intro b x hb
    rw [List.foldl_cons, List.foldl_cons]
    apply ih
    -- the layer writes the whole of `next_state`'s first `TENS_HIDDEN`, from the same input
    dsimp only
    rw [take_writeOut (length_layer_forward _ _ _ _), layer_forward_congr hb,
      List.take_of_length_le (by simp)]

/-- **The working buffers are scratch.** `tens_hash_precomputed` returns the network of the
context's matrices on the input's bits, whatever its buffers held. -/
theorem tens_hash_precomputed_eq (input : List UInt8) (ctx : TensHashContext) :
    (tens_hash_precomputed input ctx).1 =
      (pack_bits (network ctx.expansion_mat ctx.hidden_mats ctx.compression_mat
        (unpackBits input.reverse ++ List.replicate (TENS_HIDDEN - INPUT_BITS) 0))).reverse := by
  have hloop := hiddenLoop_foldl ctx.hidden_mats (List.range NUM_HIDDEN_LAYERS)
    (writeOut (layer_forward ctx.expansion_mat INPUT_BITS TENS_HIDDEN
      (unpackBits input.reverse ++ List.replicate (TENS_HIDDEN - INPUT_BITS) 0)) ctx.next_state,
      unpackBits input.reverse ++ List.replicate (TENS_HIDDEN - INPUT_BITS) 0)
    (layer_forward ctx.expansion_mat INPUT_BITS TENS_HIDDEN
      (unpackBits input.reverse ++ List.replicate (TENS_HIDDEN - INPUT_BITS) 0))
    (by rw [take_writeOut (length_layer_forward _ _ _ _), List.take_of_length_le (by simp)])
  simp only [tens_hash_precomputed, network, hiddenLoop]
  rw [take_writeOut (length_layer_forward _ _ _ _), layer_forward_congr hloop]

/-! `tens_hash_precomputed` changes the buffers of the context only. -/

@[simp] theorem expansion_mat_tens_hash_precomputed (input : List UInt8) (ctx : TensHashContext) :
    (tens_hash_precomputed input ctx).2.expansion_mat = ctx.expansion_mat := by
  simp only [tens_hash_precomputed]

@[simp] theorem hidden_mats_tens_hash_precomputed (input : List UInt8) (ctx : TensHashContext) :
    (tens_hash_precomputed input ctx).2.hidden_mats = ctx.hidden_mats := by
  simp only [tens_hash_precomputed]

@[simp] theorem compression_mat_tens_hash_precomputed (input : List UInt8)
    (ctx : TensHashContext) :
    (tens_hash_precomputed input ctx).2.compression_mat = ctx.compression_mat := by
  simp only [tens_hash_precomputed]

/-- `tens_hash` is the network of the seed's matrices. -/
theorem tens_hash_eq (input : List UInt8) (seed : Vector UInt8 32) :
    tens_hash input seed =
      (pack_bits (network (tens_hash_init seed).expansion_mat (tens_hash_init seed).hidden_mats
        (tens_hash_init seed).compression_mat
        (unpackBits input.reverse ++ List.replicate (TENS_HIDDEN - INPUT_BITS) 0))).reverse :=
  tens_hash_precomputed_eq input _

/-! ### A context serves every input -/

/-- The context holds the matrices `tens_hash_init seed` made; its buffers may hold anything. -/
structure TensHashContext.HasMatricesOf (ctx : TensHashContext) (seed : Vector UInt8 32) :
    Prop where
  expansion : ctx.expansion_mat = (tens_hash_init seed).expansion_mat
  hidden : ctx.hidden_mats = (tens_hash_init seed).hidden_mats
  compression : ctx.compression_mat = (tens_hash_init seed).compression_mat

namespace TensHashContext.HasMatricesOf

variable {ctx : TensHashContext} {seed : Vector UInt8 32}

theorem init (seed : Vector UInt8 32) : (tens_hash_init seed).HasMatricesOf seed :=
  ⟨rfl, rfl, rfl⟩

/-- `tens_hash_precomputed` keeps the matrices. -/
theorem precomputed (h : ctx.HasMatricesOf seed) (input : List UInt8) :
    (tens_hash_precomputed input ctx).2.HasMatricesOf seed :=
  ⟨by simp [h.expansion], by simp [h.hidden], by simp [h.compression]⟩

/-- With the matrices of a seed, `tens_hash_precomputed` is `tens_hash` of that seed. -/
theorem precomputed_eq (h : ctx.HasMatricesOf seed) (input : List UInt8) :
    (tens_hash_precomputed input ctx).1 = tens_hash input seed := by
  rw [tens_hash_precomputed_eq, tens_hash_eq, h.expansion, h.hidden, h.compression]

end TensHashContext.HasMatricesOf

end TensHash

namespace CBlockHeader

open TensHash

/-- The 32 bytes the proof-of-work hash reads: `nNonce` copied into the first four, on a
little-endian host, and zeros. -/
def nonceBytes (nNonce : UInt32) : List UInt8 :=
  writeLE32 nNonce ++ List.replicate 28 0

/-- The 32 output bytes written into a `uint256`. -/
def toUint256 (bytes : List UInt8) : Uint256 :=
  Vector.ofFn fun i => bytes.getD i 0

/-- `CBlockHeader::GetPoWHashPrecomputed`: TensHash of the nonce with the context given. -/
def GetPoWHashPrecomputed (h : CBlockHeader) (ctx : TensHashContext) :
    Uint256 × TensHashContext :=
  (toUint256 (tens_hash_precomputed (nonceBytes h.nNonce) ctx).1,
    (tens_hash_precomputed (nonceBytes h.nNonce) ctx).2)

/-- `CBlockHeader::GetPoWHash`: TensHash of the nonce, seeded by the header's `GetHash`. -/
def GetPoWHash (sha256d : List UInt8 → Uint256) (h : CBlockHeader) : Uint256 :=
  let seed := h.GetHash sha256d
  toUint256 (tens_hash (nonceBytes h.nNonce) seed)

/-- **A context serves the header it was built for.** A context with the matrices of the header's
`GetHash`, whatever its working buffers hold (after any number of earlier hashes), gives the hash
`GetPoWHash` computes from scratch, and keeps its matrices. -/
theorem GetPoWHashPrecomputed_eq (sha256d : List UInt8 → Uint256) (h : CBlockHeader)
    {ctx : TensHashContext} (hctx : ctx.HasMatricesOf (h.GetHash sha256d)) :
    (h.GetPoWHashPrecomputed ctx).1 = h.GetPoWHash sha256d ∧
      (h.GetPoWHashPrecomputed ctx).2.HasMatricesOf (h.GetHash sha256d) :=
  ⟨by rw [GetPoWHashPrecomputed, hctx.precomputed_eq, GetPoWHash], hctx.precomputed _⟩

end CBlockHeader

end Tenscoin
