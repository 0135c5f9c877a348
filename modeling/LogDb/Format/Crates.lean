import LogDb.Lib.Slice

/-!
The third-party crates the storage engine calls, as parameters of the model, and the key ring
that encrypted segments are written and read with.

CRC-32C and the single-chunk case of keyed BLAKE3, as the `crc32c` and `blake3` crates compute
them, for evaluating the model on concrete segments.
-/

namespace LogDb.Format

open Lib

/-- A `[u8; 32]`: hashes, chain keys and encryption keys. -/
abbrev Bytes32 := {b : Bytes // b.length = 32}

/-- `[0u8; 32]`. -/
def zeros32 : Bytes32 :=
  ⟨List.replicate 32 0, by simp⟩

/-- A `copy_from_slice` into a `[u8; 32]`; the callers pass exactly 32 bytes. -/
def copy32 (b : Bytes) : Bytes32 :=
  ⟨setLen 32 b, setLen_length 32 b⟩

theorem copy32_val (b : Bytes32) : copy32 b.1 = b := by
  have h := setLen_self b.1
  rw [b.2] at h
  exact Subtype.ext h

/-- `xor32`: the bytewise exclusive or that masks a chain key in a segment header. -/
def xor32 (a b : Bytes32) : Bytes32 :=
  ⟨List.zipWith (· ^^^ ·) a.1 b.1, by simp [a.2, b.2]⟩

private theorem zipWith_xor_cancel (a b : Bytes) (h : a.length = b.length) :
    List.zipWith (· ^^^ ·) (List.zipWith (· ^^^ ·) a b) b = a := by
  induction a generalizing b with
  | nil => simp
  | cons x xs ih =>
    cases b with
    | nil => simp at h
    | cons y ys =>
      have ht : xs.length = ys.length := by simpa using h
      simp only [List.zipWith_cons_cons, ih ys ht, List.cons.injEq, and_true]
      rw [UInt8.xor_assoc, UInt8.xor_self, UInt8.xor_zero]

theorem xor32_cancel (a b : Bytes32) : xor32 (xor32 a b) b = a :=
  Subtype.ext (zipWith_xor_cancel a.1 b.1 (by rw [a.2, b.2]))

/-- The crates `crc32c`, `blake3`, `zstd` and `aes-gcm`, as the engine calls them. -/
structure Crates where
  crc32c : Bytes → UInt32
  blake3KeyedHash : Bytes32 → Bytes → Bytes32
  zstdEncodeAll : Bytes → Bytes
  zstdDecodeAll : Bytes → Except String Bytes
  /-- Key, nonce, plaintext. -/
  aesEncrypt : Bytes32 → Bytes → Bytes → Bytes
  /-- Key, nonce, ciphertext; fails when the tag does not authenticate. -/
  aesDecrypt : Bytes32 → Bytes → Bytes → Option Bytes

/-- The codecs decode what they encoded, and a compressed stream is never empty. -/
structure Crates.Lawful (C : Crates) : Prop where
  zstd_inverse : ∀ bs, C.zstdDecodeAll (C.zstdEncodeAll bs) = .ok bs
  zstd_ne_nil : ∀ bs, C.zstdEncodeAll bs ≠ []
  aes_inverse : ∀ key nonce bs, C.aesDecrypt key nonce (C.aesEncrypt key nonce bs) = some bs

/-- The ASCII text `logdb-hash-chain-init-v1`. -/
def hashChainContext : Bytes :=
  [108, 111, 103, 100, 98, 45, 104, 97, 115, 104, 45, 99, 104, 97, 105, 110, 45, 105, 110, 105,
    116, 45, 118, 49]

def deriveHashInit (C : Crates) (key : Bytes32) : Bytes32 :=
  C.blake3KeyedHash key hashChainContext

/-- The next value of the keyed hash chain. -/
def blake3KeyedChain (C : Crates) (key prevHash : Bytes32) (content : Bytes) : Bytes32 :=
  C.blake3KeyedHash key (prevHash.1 ++ content)

/-- A key ring: the active key encrypts, and all keys decrypt, the active one first. -/
structure KeyRing where
  activeId : BitVec 128
  active : Bytes32
  prior : List (BitVec 128 × Bytes32)

namespace KeyRing

/-- All keys valid for decryption, in the order they are tried. -/
def decryptKeys (ring : KeyRing) : List (BitVec 128 × Bytes32) :=
  (ring.activeId, ring.active) :: ring.prior

def keyForId (ring : KeyRing) (id : BitVec 128) : Option Bytes32 :=
  (ring.decryptKeys.find? fun k => k.1 == id).map Prod.snd

end KeyRing

/-- One bit of the reflected Castagnoli polynomial division. -/
def crc32cBit (crc : UInt32) : UInt32 :=
  if crc &&& 1 = 1 then (crc >>> 1) ^^^ 0x82F63B78 else crc >>> 1

def crc32cByte (crc : UInt32) (b : UInt8) : UInt32 :=
  Nat.repeat crc32cBit 8 (crc ^^^ b.toUInt32)

def crc32c (bs : Bytes) : UInt32 :=
  ~~~ bs.foldl crc32cByte 0xFFFFFFFF

-- The check value of the algorithm: the digits 1 to 9.
example : crc32c [49, 50, 51, 52, 53, 54, 55, 56, 57] = 0xE3069283 := by decide +kernel

namespace Blake3

def iv : List UInt32 :=
  [0x6A09E667, 0xBB67AE85, 0x3C6EF372, 0xA54FF53A, 0x510E527F, 0x9B05688C, 0x1F83D9AB, 0x5BE0CD19]

def permutation : List ℕ := [2, 6, 3, 10, 7, 0, 4, 13, 1, 11, 12, 5, 9, 14, 15, 8]

def rotr (x : UInt32) (n : ℕ) : UInt32 :=
  (x >>> UInt32.ofNat n) ||| (x <<< UInt32.ofNat (32 - n))

/-- The quarter round on the words `a`, `b`, `c`, `d` of the state. -/
def quarter (v : List UInt32) (a b c d : ℕ) (x y : UInt32) : List UInt32 :=
  let va := v.getD a 0 + v.getD b 0 + x
  let vd := rotr (v.getD d 0 ^^^ va) 16
  let vc := v.getD c 0 + vd
  let vb := rotr (v.getD b 0 ^^^ vc) 12
  let va := va + vb + y
  let vd := rotr (vd ^^^ va) 8
  let vc := vc + vd
  let vb := rotr (vb ^^^ vc) 7
  (((v.set a va).set b vb).set c vc).set d vd

def round (v m : List UInt32) : List UInt32 :=
  let g := fun v a b c d i => quarter v a b c d (m.getD i 0) (m.getD (i + 1) 0)
  let v := g (g (g (g v 0 4 8 12 0) 1 5 9 13 2) 2 6 10 14 4) 3 7 11 15 6
  g (g (g (g v 0 5 10 15 8) 1 6 11 12 10) 2 7 8 13 12) 3 4 9 14 14

def rounds : ℕ → List UInt32 → List UInt32 → List UInt32
  | 0, v, _ => v
  | n + 1, v, m => rounds n (round v m) (permutation.map fun i => m.getD i 0)

/-- Little-endian words; a short block is padded with zeros. -/
def words : ℕ → Bytes → List UInt32
  | 0, _ => []
  | n + 1, bs => UInt32.ofNat (leVal (bs.take 4)) :: words n (bs.drop 4)

def compress (cv : List UInt32) (block : Bytes) (flags : UInt32) : List UInt32 :=
  let v := rounds 7 (cv ++ iv.take 4 ++ [0, 0, UInt32.ofNat block.length, flags]) (words 16 block)
  List.zipWith (· ^^^ ·) (v.take 8) (v.drop 8)

/-- The blocks of the only chunk; the last one is also the root. -/
def blocks : ℕ → List UInt32 → UInt32 → Bytes → List UInt32
  | 0, cv, _, _ => cv
  | n + 1, cv, start, bs =>
    if bs.length ≤ 64 then compress cv bs (start + 2 + 8 + 16)
    else blocks n (compress cv (bs.take 64) (start + 16)) 0 (bs.drop 64)

end Blake3

/-- `blake3::keyed_hash` on at most 1024 bytes. -/
def blake3KeyedHash (key : Bytes32) (input : Bytes) : Bytes32 :=
  copy32 ((Blake3.blocks 16 (Blake3.words 8 key.1) 1 input).flatMap fun w => leBytes 4 w.toNat)

-- The published test vector for the empty input.
example :
    blake3KeyedHash (copy32 [119, 104, 97, 116, 115, 32, 116, 104, 101, 32, 69, 108, 118, 105, 115,
      104, 32, 119, 111, 114, 100, 32, 102, 111, 114, 32, 102, 114, 105, 101, 110, 100]) [] =
    copy32 [0x92, 0xb2, 0xb7, 0x56, 0x04, 0xed, 0x3c, 0x76, 0x1f, 0x9d, 0x6f, 0x62, 0x39, 0x2c,
      0x8a, 0x92, 0x27, 0xad, 0x0e, 0xa3, 0xf0, 0x95, 0x73, 0xe7, 0x83, 0xf1, 0x49, 0x8a, 0x4e,
      0xd6, 0x0d, 0x26] := by
  decide +kernel

/-- The crates as raw segments with short records exercise them: the real checksum and hash, and
stand-ins for the codecs such a segment never calls. -/
def rawCrates : Crates where
  crc32c := crc32c
  blake3KeyedHash := blake3KeyedHash
  zstdEncodeAll bs := 0 :: bs
  zstdDecodeAll bs :=
    match bs with
    | [] => .error "empty stream"
    | _ :: rest => .ok rest
  aesEncrypt _ _ bs := bs
  aesDecrypt _ _ bs := some bs

theorem rawCrates_lawful : rawCrates.Lawful where
  zstd_inverse _ := rfl
  zstd_ne_nil _ := List.cons_ne_nil _ _
  aes_inverse _ _ _ := rfl

def okAnd {ε α : Type} (x : Except ε α) (test : α → Bool) : Bool :=
  match x with
  | .ok a => test a
  | .error _ => false

theorem exists_of_okAnd {ε α : Type} {x : Except ε α} {test : α → Bool}
    (h : okAnd x test = true) : ∃ a, x = .ok a ∧ test a = true := by
  cases x with
  | ok a => exact ⟨a, rfl, h⟩
  | error e => cases h

end LogDb.Format
