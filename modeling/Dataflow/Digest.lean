import Dataflow.Number.Width

/-!
# BLAKE3 digests

The digest of a byte string by BLAKE3. The input is cut into chunks of 1024 bytes, each chunk is
folded into a chaining value block by block, and the chaining values are joined by a binary tree
whose left branches are full. A `Node` is a compression whose last step is still to be made, because
the root of the tree differs from all other nodes only in that step.
-/

namespace Dataflow

/-- A digest of 256 bits. -/
structure Digest where
  bytes : List UInt8
deriving DecidableEq, Repr, Inhabited

namespace Digest

abbrev Words (n : Nat) := Vector UInt32 n

/-- The words from which all chaining starts. -/
def start : Words 8 :=
  #v[0x6A09E667, 0xBB67AE85, 0x3C6EF372, 0xA54FF53A, 0x510E527F, 0x9B05688C, 0x1F83D9AB, 0x5BE0CD19]

/-- Where each message word of a round comes from in the round before. -/
def shuffle : Vector (Fin 16) 16 := #v[2, 6, 3, 10, 7, 0, 4, 13, 1, 11, 12, 5, 9, 14, 15, 8]

def rotateRight (w : UInt32) (n : UInt32) : UInt32 := (w >>> n) ||| (w <<< (32 - n))

/-- Mixes two message words into four words of the state. -/
def mix (s : Words 16) (a b c d : Fin 16) (x y : UInt32) : Words 16 :=
  let s := s.set a (s[a] + s[b] + x)
  let s := s.set d (rotateRight (s[d] ^^^ s[a]) 16)
  let s := s.set c (s[c] + s[d])
  let s := s.set b (rotateRight (s[b] ^^^ s[c]) 12)
  let s := s.set a (s[a] + s[b] + y)
  let s := s.set d (rotateRight (s[d] ^^^ s[a]) 8)
  let s := s.set c (s[c] + s[d])
  s.set b (rotateRight (s[b] ^^^ s[c]) 7)

/-- Mixes all message words into the columns and then the diagonals of the state. -/
def round (s m : Words 16) : Words 16 :=
  let s := mix s 0 4 8 12 m[0] m[1]
  let s := mix s 1 5 9 13 m[2] m[3]
  let s := mix s 2 6 10 14 m[4] m[5]
  let s := mix s 3 7 11 15 m[6] m[7]
  let s := mix s 0 5 10 15 m[8] m[9]
  let s := mix s 1 6 11 12 m[10] m[11]
  let s := mix s 2 7 8 13 m[12] m[13]
  mix s 3 4 9 14 m[14] m[15]

def rounds : Nat → Words 16 → Words 16 → Words 16
  | 0, s, _ => s
  | n + 1, s, m => rounds n (round s m) (shuffle.map (m[·]))

/-- A compression that is still to be made. -/
structure Node where
  chaining : Words 8
  block : Words 16
  counter : UInt64
  length : UInt32
  flags : UInt32

/-- Compresses a node to its next chaining value. -/
def Node.compress (n : Node) (flags : UInt32) : Words 8 :=
  let tail : Words 8 := #v[start[0], start[1], start[2], start[3],
    n.counter.toUInt32, (n.counter >>> 32).toUInt32, n.length, n.flags ||| flags]
  let s := rounds 7 (n.chaining ++ tail) n.block
  Vector.ofFn fun i : Fin 8 => s[i.val] ^^^ s[i.val + 8]

def firstBlock : UInt32 := 1
def lastBlock : UInt32 := 2
def inner : UInt32 := 4
def root : UInt32 := 8

/-- Four bytes as a word, the lowest byte first; missing bytes count as zero. -/
def wordAt (bytes : List UInt8) (i : Nat) : UInt32 :=
  let byte (j : Nat) : UInt32 := (bytes.getD (4 * i + j) 0).toUInt32
  byte 0 ||| (byte 1 <<< 8) ||| (byte 2 <<< 16) ||| (byte 3 <<< 24)

/-- The words of a block of up to 64 bytes. -/
def blockOf (bytes : List UInt8) : Words 16 := Vector.ofFn fun i : Fin 16 => wordAt bytes i

/-- Folds the blocks of a chunk; the last block is left uncompressed. -/
def chunkNode (counter : UInt64) (chaining : Words 8) (flags : UInt32) : List (List UInt8) → Node
  | [] => ⟨chaining, blockOf [], counter, 0, flags ||| lastBlock⟩
  | [last] => ⟨chaining, blockOf last, counter, last.length.toUInt32, flags ||| lastBlock⟩
  | block :: rest =>
    let node : Node := ⟨chaining, blockOf block, counter, 64, flags⟩
    chunkNode counter (node.compress 0) 0 rest

/-- Cuts a list into pieces of the given length; the last one may be shorter. -/
def pieces (size : Nat) (bytes : List UInt8) : List (List UInt8) :=
  match bytes with
  | [] => []
  | b :: rest => (b :: rest).take (size + 1) :: pieces size (rest.drop size)
termination_by bytes.length
decreasing_by simp only [List.length_drop, List.length_cons]; omega

/-- The node that joins two branches. -/
def join (left right : Node) : Node :=
  ⟨start, left.compress 0 ++ right.compress 0, 0, 64, inner⟩

/-- The largest power of two below `n`, for `n` of at least two. -/
def leftSize (n : Nat) : Nat := twoPow (n - 1).log2

theorem leftSize_lt {n : Nat} (h : 2 ≤ n) : leftSize n < n := by
  have : twoPow (n - 1).log2 ≤ n - 1 := Nat.log2_self_le (by omega)
  unfold leftSize; omega

theorem leftSize_pos (n : Nat) : 0 < leftSize n := Nat.two_pow_pos _

/-- The tree over the given chunks, which are counted from `counter`. -/
def tree (counter : Nat) (chunks : List (List UInt8)) : Node :=
  if chunks.length < 2 then
    chunkNode counter.toUInt64 start firstBlock (pieces 63 (chunks.headD []))
  else
    let n := leftSize chunks.length
    join (tree counter (chunks.take n)) (tree (counter + n) (chunks.drop n))
termination_by chunks.length
decreasing_by
  · rename_i h
    have := leftSize_lt (n := chunks.length) (by omega)
    simp only [List.length_take]; omega
  · have := leftSize_pos chunks.length
    simp only [List.length_drop]; omega

/-- The bytes of a word, the lowest first. -/
def wordBytes (w : UInt32) : List UInt8 :=
  [w.toUInt8, (w >>> 8).toUInt8, (w >>> 16).toUInt8, (w >>> 24).toUInt8]

/-- The digest of a byte string. -/
def ofBytes (bytes : List UInt8) : Digest :=
  ⟨((tree 0 (pieces 1023 bytes)).compress root).toList.flatMap wordBytes⟩

/-- The digest of a text, by its UTF-8 bytes. -/
def ofText (s : String) : Digest := ofBytes s.toUTF8.toList

def hexDigit (n : Nat) : Char := "0123456789abcdef".toList.getD n '0'

/-- Two hexadecimal digits for each byte. -/
def hex (d : Digest) : String :=
  String.ofList (d.bytes.flatMap fun b => [hexDigit (b.toNat / 16), hexDigit (b.toNat % 16)])

/-- The first twelve hexadecimal digits. -/
def short (d : Digest) : String := String.ofList (d.hex.toList.take 12)

end Digest

end Dataflow
