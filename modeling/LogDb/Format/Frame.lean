import LogDb.Format.Header

/-!
Frames: the layout of compressed or encrypted segments. A batch of records is stored as an
8-byte frame header and a payload that is compressed first and encrypted last.
-/

namespace LogDb.Format

open Lib List Option

def frameHeaderSize : ℕ := 8

def encryptionNonceSize : ℕ := 12

abbrev Nonce := {b : Bytes // b.length = encryptionNonceSize}

def zeroNonce : Nonce :=
  ⟨replicate 12 0, rfl⟩

/-- Both lengths are stored as `u32`. -/
def writeFrameHeader (compressedLen decompressedLen : ℕ) : Bytes :=
  leBytes 4 compressedLen ++ leBytes 4 decompressedLen

def readFrameHeader (buf : Bytes) : ℕ × ℕ :=
  (leVal (field 0 4 buf), leVal (field 4 4 buf))

section

variable (C : Crates)

def encryptIfEnabled (key : Option Bytes32) (nonce : Nonce) (plaintext : Bytes) :
    Bytes :=
  match key with
  | some k => nonce.1 ++ C.aesEncrypt k nonce.1 plaintext
  | none => plaintext

def encodeFramePayload (compressed : Bool) (key : Option Bytes32) (nonce : Nonce)
    (raw : Bytes) : Bytes :=
  encryptIfEnabled C key nonce (if compressed then C.zstdEncodeAll raw else raw)

def decompressFrame (compressed : Bytes) : Except String Bytes :=
  match C.zstdDecodeAll compressed with
  | .ok bs => .ok bs
  | .error e => .error s!"zstd decode: {e}"

/-- Every key of the ring is tried until one authenticates. -/
def decryptFrameData (keys : KeyRing) (encrypted : Bytes) : Except String Bytes :=
  if encrypted.length < encryptionNonceSize then
    .error "too short"
  else
    let nonce := field 0 encryptionNonceSize encrypted
    let ct := encrypted.drop encryptionNonceSize
    match keys.decryptKeys.findSome? fun k => C.aesDecrypt k.2 nonce ct with
    | some plain => .ok plain
    | none => .error "decryption failed"

def decodeFramePayload (payload : Bytes) (compressed encrypted : Bool)
    (keyRing : Option KeyRing) : Except String Bytes := do
  let plain ←
    if encrypted then
      match keyRing with
      | none => .error "encrypted frame but no key provided"
      | some kr => decryptFrameData C kr payload
    else
      .ok payload
  if compressed then decompressFrame C plain else .ok plain

end

private theorem decryptFrameData_encrypt {C : Crates} (hC : C.Lawful) (keys : KeyRing)
    (nonce : Nonce) (plain : Bytes) :
    decryptFrameData C keys (nonce.1 ++ C.aesEncrypt keys.active nonce.1 plain) = .ok plain := by
  have hn : field 0 encryptionNonceSize (nonce.1 ++ C.aesEncrypt keys.active nonce.1 plain) =
      nonce.1 := by
    rw [field_zero]
    exact take_left' nonce.2
  have hc : (nonce.1 ++ C.aesEncrypt keys.active nonce.1 plain).drop encryptionNonceSize =
      C.aesEncrypt keys.active nonce.1 plain :=
    drop_left' nonce.2
  have hl : ¬ (nonce.1 ++ C.aesEncrypt keys.active nonce.1 plain).length <
      encryptionNonceSize := by
    rw [length_append, nonce.2]
    omega
  rw [decryptFrameData, if_neg hl]
  simp only [hn, hc, KeyRing.decryptKeys, findSome?_cons, hC.aes_inverse]

theorem decodeFramePayload_encodeFramePayload {C : Crates} (hC : C.Lawful) (compressed : Bool)
    (keyRing : Option KeyRing) (nonce : Nonce) (raw : Bytes) :
    decodeFramePayload C
      (encodeFramePayload C compressed (keyRing.map KeyRing.active) nonce raw) compressed
      keyRing.isSome keyRing = .ok raw := by
  have hd : decompressFrame C (C.zstdEncodeAll raw) = .ok raw := by
    rw [decompressFrame, hC.zstd_inverse]
  cases keyRing with
  | none =>
    cases compressed with
    | false => rfl
    | true => exact hd
  | some keys =>
    unfold decodeFramePayload
    simp only [encodeFramePayload, map_some, encryptIfEnabled, isSome_some,
      if_true, decryptFrameData_encrypt hC]
    cases compressed with
    | false => rfl
    | true => exact hd

theorem encodeFramePayload_ne_nil {C : Crates} (hC : C.Lawful) (compressed : Bool)
    (key : Option Bytes32) (nonce : Nonce) (raw : Bytes) (hr : raw ≠ []) :
    encodeFramePayload C compressed key nonce raw ≠ [] := by
  have hne := nonce.2
  cases key with
  | some k =>
    intro hn
    have hl := congrArg length hn
    simp [encodeFramePayload, encryptIfEnabled, hne, encryptionNonceSize] at hl
  | none =>
    cases compressed with
    | false => exact hr
    | true => exact hC.zstd_ne_nil raw

def frameBytes (payload : Bytes) (rawLen : ℕ) : Bytes :=
  writeFrameHeader payload.length rawLen ++ payload

@[simp] theorem frameBytes_length (payload : Bytes) (rawLen : ℕ) :
    (frameBytes payload rawLen).length = frameHeaderSize + payload.length := by
  simp only [frameBytes, writeFrameHeader, frameHeaderSize, length_append, leBytes_length]

/-- Frames delimit themselves by the payload length in their header. -/
def frameFraming : Framing where
  next bs :=
    let cl := (readFrameHeader bs).1
    let dl := (readFrameHeader bs).2
    if cl ≠ 0 ∧ dl ≠ 0 ∧ frameHeaderSize + cl ≤ bs.length then some (frameHeaderSize + cl)
    else none
  next_pos := by
    intro bs n h
    simp only [ite_none_right_eq_some, some.injEq] at h
    exact h.2 ▸ Nat.add_pos_left (by decide) _
  next_le := by
    intro bs n h
    simp only [ite_none_right_eq_some, some.injEq] at h
    exact h.2 ▸ h.1.2.2
  next_local := by
    intro bs n h rest
    simp only [ite_none_right_eq_some, some.injEq] at h ⊢
    obtain ⟨⟨hcl, hdl, hle⟩, rfl⟩ := h
    have hfit : 4 + 4 ≤ frameHeaderSize + (readFrameHeader bs).1 := Nat.le_add_right _ _
    have hhead : readFrameHeader (bs.take (frameHeaderSize + (readFrameHeader bs).1) ++ rest) =
        readFrameHeader bs := by
      have hzero : field 0 4 (bs.take (frameHeaderSize + (readFrameHeader bs).1) ++ rest) =
          field 0 4 bs := field_take_append rest hle (le_trans (by decide) hfit)
      have hfour := field_take_append rest hle hfit
      exact Prod.ext (congrArg leVal hzero) (congrArg leVal hfour)
    rw [hhead]
    refine ⟨⟨hcl, hdl, ?_⟩, rfl⟩
    rw [length_append, length_take_of_le hle]
    exact Nat.le_add_right _ _

theorem frameFraming_next_eq_some {bs : Bytes} {n : ℕ} : frameFraming.next bs = some n ↔
      frameHeaderSize + (readFrameHeader bs).1 = n ∧ (readFrameHeader bs).1 ≠ 0 ∧
        (readFrameHeader bs).2 ≠ 0 ∧ n ≤ bs.length := by
  simp only [frameFraming, ite_none_right_eq_some, some.injEq]
  constructor
  · rintro ⟨⟨hc, hd, hle⟩, rfl⟩
    exact ⟨rfl, hc, hd, hle⟩
  · rintro ⟨rfl, hc, hd, hle⟩
    exact ⟨⟨hc, hd, hle⟩, rfl⟩

theorem readFrameHeader_take {n : ℕ} (bs : Bytes) (h : frameHeaderSize ≤ n) :
    readFrameHeader (bs.take n) = readFrameHeader bs := by
  have hs : frameHeaderSize = 8 := rfl
  rw [readFrameHeader, field_take bs (by omega), field_take bs (by omega), readFrameHeader]

theorem readFrameHeader_frameBytes {payload : Bytes} (rawLen : ℕ)
    (hp : payload.length < 2 ^ 32) (rest : Bytes) :
    readFrameHeader (frameBytes payload rawLen ++ rest) = (payload.length, rawLen % 2 ^ 32) := by
  have ht : frameBytes payload rawLen ++ rest =
      [leBytes 4 payload.length, leBytes 4 rawLen, payload ++ rest].flatten := by
    simp [frameBytes, writeFrameHeader]
  have hc : field 0 4 (frameBytes payload rawLen ++ rest) = leBytes 4 payload.length := by
    rw [ht]
    exact field_flatten [] _ _ rfl (by simp)
  have hd : field 4 4 (frameBytes payload rawLen ++ rest) = leBytes 4 rawLen := by
    rw [ht]
    exact field_flatten [_] _ _ (by simp) (by simp)
  rw [readFrameHeader, hc, hd, leVal_leBytes_of_lt hp, leVal_leBytes]
  norm_num

theorem isChunk_frameBytes {payload : Bytes} {rawLen : ℕ} (hne : payload ≠ [])
    (hp : payload.length < 2 ^ 32) (ho : 0 < rawLen) (hr : rawLen < 2 ^ 32) :
    frameFraming.IsChunk (frameBytes payload rawLen) := by
  have hd := readFrameHeader_frameBytes rawLen hp []
  rw [append_nil, Nat.mod_eq_of_lt hr] at hd
  rw [Framing.IsChunk, frameFraming_next_eq_some, hd, frameBytes_length]
  refine ⟨rfl, ?_, ne_of_gt ho, le_rfl⟩
  exact fun h => hne (length_eq_zero_iff.mp h)

end LogDb.Format
