import LogDb.Daemon.Record
import LogDb.Lib.Slice

/-!
The consumer offset file: a count and, for each consumer, its four names and the committed
sequence number. The decoder checks every bound before it reads.
-/

namespace LogDb.Daemon.Offsets

open Lib List

def magic : Bytes := [0x4C, 0x44, 0x42, 0x4F]
def version : UInt8 := 1

/-- Namespace, stream, consumer group and consumer id. -/
abbrev OffsetKey := String × String × String × String

abbrev OffsetMap := OffsetKey → Option UInt64

inductive OffsetError where
  | badMagic
  | unsupportedVersion (version : UInt8)
  | unexpectedEof
  | badUtf8
  | stringTooLong (len : ℕ)

/-- How a call can end early: with an error of its own, or by an index outside of its slice. -/
inductive Fault where
  | error (e : OffsetError)
  | outOfBounds

def keyStrings : OffsetKey → List String
  | (ns, stream, group, id) => [ns, stream, group, id]

/-! ## Encoding -/

def writeStr (buf : Bytes) (s : String) : Except OffsetError Bytes :=
  if (strBytes s).length ≤ 65535 then .ok (buf ++ encodeStr 2 s)
  else .error (.stringTooLong (strBytes s).length)

def writeEntry (buf : Bytes) (e : OffsetKey × UInt64) : Except OffsetError Bytes := do
  return (← (keyStrings e.1).foldlM writeStr buf) ++ leBytes 8 e.2.toNat

/-- The map is given by its entries, in the order in which it iterates over them. -/
def encode (map : List (OffsetKey × UInt64)) : Except OffsetError Bytes :=
  map.foldlM writeEntry (magic ++ [version] ++ leBytes 4 map.length)

/-! ## Decoding -/

def insertEntry {κ β : Type} [DecidableEq κ] (map : κ → Option β) (e : κ × β) : κ → Option β :=
  Function.update map e.1 (some e.2)

/-- `bytes[off..off + len]` -/
def sliceAt (bytes : Bytes) (off len : ℕ) : Except Fault Bytes :=
  (slice off len bytes).elim (.error .outOfBounds) .ok

def readStr (bytes : Bytes) (pos : ℕ) : Except Fault (String × ℕ) :=
  if pos + 2 > bytes.length then .error (.error .unexpectedEof)
  else do
    let len := leVal (← sliceAt bytes pos 2)
    if pos + 2 + len > bytes.length then .error (.error .unexpectedEof)
    else
      match strOfBytes (← sliceAt bytes (pos + 2) len) with
      | some s => .ok (s, pos + 2 + len)
      | none => .error (.error .badUtf8)

def readSeq (bytes : Bytes) (pos : ℕ) : Except Fault UInt64 :=
  if pos + 8 > bytes.length then .error (.error .unexpectedEof)
  else do return UInt64.ofNat (leVal (← sliceAt bytes pos 8))

def readEntries (bytes : Bytes) : ℕ → ℕ → OffsetMap → Except Fault OffsetMap
  | 0, _, map => .ok map
  | count + 1, pos, map => do
    let (ns, p) ← readStr bytes pos
    let (stream, p) ← readStr bytes p
    let (group, p) ← readStr bytes p
    let (id, p) ← readStr bytes p
    let seq ← readSeq bytes p
    readEntries bytes count (p + 8) (insertEntry map ((ns, stream, group, id), seq))

def decode (bytes : Bytes) : Except Fault OffsetMap :=
  if bytes.isEmpty then .ok fun _ => none
  else if bytes.length < 9 then .error (.error .unexpectedEof)
  else do
    if (← sliceAt bytes 0 4) ≠ magic then .error (.error .badMagic)
    else
      let found ← bytes[4]?.elim (.error .outOfBounds) .ok
      if found ≠ version then .error (.error (.unsupportedVersion found))
      else readEntries bytes (leVal (← sliceAt bytes 5 4)) 9 fun _ => none

/-! ## No read outside of the bytes -/

def Safe {α : Type} (x : Except Fault α) : Prop :=
  x ≠ .error .outOfBounds

theorem Safe.bind {α β : Type} {x : Except Fault α} {f : α → Except Fault β} (hx : Safe x)
    (hf : ∀ a, Safe (f a)) : Safe (x >>= f) := by
  cases x with
  | ok a => exact hf a
  | error e => exact fun h => hx (by cases h; rfl)

variable {bytes : Bytes} {off len : ℕ}

@[simp] theorem ok_bind {α β ε : Type} (a : α) (f : α → Except ε β) : (.ok a >>= f) = f a := rfl

theorem sliceAt_eq (h : off + len ≤ bytes.length) :
    sliceAt bytes off len = .ok (field off len bytes) := by
  rw [sliceAt, slice, if_pos h, Option.elim]

theorem readStr_safe (bytes : Bytes) (pos : ℕ) : Safe (readStr bytes pos) := by
  unfold readStr Safe
  split
  · simp
  · rw [sliceAt_eq (by omega), ok_bind]
    dsimp only
    split
    · simp
    · rw [sliceAt_eq (by omega), ok_bind]
      split <;> simp

theorem readSeq_safe (bytes : Bytes) (pos : ℕ) : Safe (readSeq bytes pos) := by
  unfold readSeq Safe
  split
  · simp
  · rw [sliceAt_eq (by omega)]
    simp

theorem readEntries_safe (bytes : Bytes) (count pos : ℕ) (map : OffsetMap) :
    Safe (readEntries bytes count pos map) := by
  induction count generalizing pos map with
  | zero => simp [readEntries, Safe]
  | succ count ih =>
    refine (readStr_safe bytes pos).bind fun _ => (readStr_safe bytes _).bind fun _ => ?_
    refine (readStr_safe bytes _).bind fun _ => (readStr_safe bytes _).bind fun _ => ?_
    exact (readSeq_safe bytes _).bind fun _ => ih _ _

theorem decode_safe (bytes : Bytes) : Safe (decode bytes) := by
  unfold decode
  split
  · simp [Safe]
  split
  · simp [Safe]
  rw [sliceAt_eq (by omega), getElem?_eq_getElem (i := 4) (by omega), sliceAt_eq (by omega)]
  simp only [ok_bind, Option.elim]
  split
  · simp [Safe]
  split
  · simp [Safe]
  exact readEntries_safe bytes _ _ _

/-! ## Round trip -/

/-- A loop that appends the encoding of each element and stops at the first that does not fit. -/
theorem foldlM_append_iff {α ε : Type} {step : Bytes → α → Except ε Bytes} {P : α → Prop}
    {enc : α → Bytes} (h : ∀ buf a out, step buf a = .ok out ↔ P a ∧ out = buf ++ enc a)
    (as : List α) (buf out : Bytes) :
    as.foldlM step buf = .ok out ↔ (∀ a ∈ as, P a) ∧ out = buf ++ as.flatMap enc := by
  induction as generalizing buf with
  | nil => simp [pure, Except.pure, eq_comm]
  | cons a as ih =>
    rw [foldlM_cons, forall_mem_cons, flatMap_cons, ← append_assoc, and_assoc, ← ih]
    cases hs : step buf a with
    | ok mid => simp [((h _ _ _).mp hs).1, ((h _ _ _).mp hs).2]
    | error e =>
      have hn : ¬P a := fun hp => by simp [(h buf a _).mpr ⟨hp, rfl⟩] at hs
      simp [hn, bind, Except.bind]

def Fits (s : String) : Prop :=
  (strBytes s).length ≤ 65535

def encodeEntry (e : OffsetKey × UInt64) : Bytes :=
  (keyStrings e.1).flatMap (encodeStr 2) ++ leBytes 8 e.2.toNat

theorem writeStr_eq_ok (buf : Bytes) (s : String) (out : Bytes) :
    writeStr buf s = .ok out ↔ Fits s ∧ out = buf ++ encodeStr 2 s := by
  unfold writeStr Fits
  split <;> simp [*, eq_comm]

theorem writeEntry_eq_ok (buf : Bytes) (e : OffsetKey × UInt64) (out : Bytes) :
    writeEntry buf e = .ok out ↔ (∀ s ∈ keyStrings e.1, Fits s) ∧ out = buf ++ encodeEntry e := by
  have hw := foldlM_append_iff writeStr_eq_ok (keyStrings e.1) buf
  unfold writeEntry encodeEntry
  cases hf : (keyStrings e.1).foldlM writeStr buf with
  | ok mid =>
    obtain ⟨hp, rfl⟩ := (hw _).mp hf
    simp only [ok_bind, pure, Except.pure, Except.ok.injEq, append_assoc]
    exact ⟨fun h => ⟨hp, h.symm⟩, fun h => h.2.symm⟩
  | error x =>
    have hn : ¬∀ s ∈ keyStrings e.1, Fits s := fun hp => by simp [(hw _).mpr ⟨hp, rfl⟩] at hf
    simp [hn]

theorem encode_eq_ok (map : List (OffsetKey × UInt64)) (out : Bytes) :
    encode map = .ok out ↔ (∀ e ∈ map, ∀ s ∈ keyStrings e.1, Fits s) ∧
      out = magic ++ [version] ++ leBytes 4 map.length ++ map.flatMap encodeEntry :=
  foldlM_append_iff writeEntry_eq_ok map _ out

theorem sliceAt_append (pre : Bytes) {x rest : Bytes} (h : bytes = pre ++ (x ++ rest))
    (hl : x.length = len) : sliceAt bytes pre.length len = .ok x := by
  subst h hl
  rw [sliceAt_eq (by simp), field, drop_left, take_left]

theorem readStr_append {pre rest : Bytes} {s : String} (hs : Fits s)
    (h : bytes = pre ++ (encodeStr 2 s ++ rest)) :
    readStr bytes pre.length = .ok (s, (pre ++ encodeStr 2 s).length) := by
  have hv : leVal (leBytes 2 (strBytes s).length) = (strBytes s).length :=
    leVal_leBytes_of_lt (Nat.lt_succ_of_le hs)
  have hl : bytes.length = pre.length + 2 + (strBytes s).length + rest.length := by
    simp [h, encodeStr]
    omega
  have h₁ : bytes = pre ++ (leBytes 2 (strBytes s).length ++ (strBytes s ++ rest)) := by
    simp [h, encodeStr]
  have h₂ : bytes = (pre ++ leBytes 2 (strBytes s).length) ++ (strBytes s ++ rest) := by
    simp [h, encodeStr]
  have ht := sliceAt_append _ h₂ rfl
  rw [length_append, leBytes_length] at ht
  rw [readStr, if_neg (by omega), sliceAt_append _ h₁ (leBytes_length ..), ok_bind, hv,
    if_neg (by omega), ht]
  simp [encodeStr, Nat.add_assoc]

theorem readSeq_append {pre rest : Bytes} {seq : UInt64}
    (h : bytes = pre ++ (leBytes 8 seq.toNat ++ rest)) : readSeq bytes pre.length = .ok seq := by
  have hl : ¬pre.length + 8 > bytes.length := by simp [h]
  rw [readSeq, if_neg hl, sliceAt_append _ h (leBytes_length ..), ok_bind,
    leVal_leBytes_of_lt seq.toNat_lt]
  simp [pure, Except.pure]

theorem readEntries_flatMap (es : List (OffsetKey × UInt64)) (pre : Bytes) (map : OffsetMap)
    (hf : ∀ e ∈ es, ∀ s ∈ keyStrings e.1, Fits s) (h : bytes = pre ++ es.flatMap encodeEntry) :
    readEntries bytes es.length pre.length map = .ok (es.foldl insertEntry map) := by
  induction es generalizing pre map with
  | nil => rfl
  | cons e es ih =>
    obtain ⟨⟨ns, stream, group, id⟩, seq⟩ := e
    obtain ⟨hk, hf⟩ := forall_mem_cons.mp hf
    obtain ⟨h₁, h₂, h₃, h₄, -⟩ : Fits ns ∧ Fits stream ∧ Fits group ∧ Fits id ∧ True := by
      simpa [keyStrings] using hk
    simp only [flatMap_cons, encodeEntry, keyStrings, flatMap_nil, append_nil, append_assoc] at h
    have hn := ih (pre ++ encodeEntry ((ns, stream, group, id), seq))
      (insertEntry map ((ns, stream, group, id), seq)) hf (by simp [h, encodeEntry, keyStrings])
    rw [length_cons, readEntries, readStr_append h₁ h, ok_bind]
    dsimp only
    rw [readStr_append h₂ (by simpa using h), ok_bind]
    dsimp only
    rw [readStr_append h₃ (by simpa using h), ok_bind]
    dsimp only
    rw [readStr_append h₄ (by simpa using h), ok_bind]
    dsimp only
    rw [readSeq_append (by simpa using h), ok_bind]
    simpa [encodeEntry, keyStrings, Nat.add_assoc] using hn

theorem foldl_insertEntry {κ β : Type} [DecidableEq κ] (es : List (κ × β)) (map : κ → Option β)
    (hd : (es.map Prod.fst).Nodup) (key : κ) (v : β) :
    es.foldl insertEntry map key = some v ↔
      (key, v) ∈ es ∨ key ∉ es.map Prod.fst ∧ map key = some v := by
  induction es generalizing map with
  | nil => simp
  | cons e es ih =>
    rw [map_cons, nodup_cons] at hd
    rw [foldl_cons, ih _ hd.2, insertEntry]
    by_cases hk : key = e.1 <;> grind

theorem decode_encode {map : List (OffsetKey × UInt64)} (hl : map.length < 2 ^ 32)
    (h : encode map = .ok bytes) : decode bytes = .ok (map.foldl insertEntry fun _ => none) := by
  obtain ⟨hf, h⟩ := (encode_eq_ok map bytes).mp h
  have hm : sliceAt bytes 0 4 = .ok magic := sliceAt_append [] (by simp [h]; rfl) rfl
  have hv : bytes[4]? = some version := by simp [h, magic]
  have hc : sliceAt bytes 5 4 = .ok (leBytes 4 map.length) :=
    sliceAt_append (magic ++ [version]) (by simp [h]; rfl) rfl
  have hr := readEntries_flatMap map _ (fun _ => none) hf h
  have hn : 9 ≤ bytes.length := by simp [h, magic]
  rw [decode, if_neg (by grind), if_neg (by omega), hm, hv, hc]
  simp only [ok_bind, Option.elim, leVal_leBytes_of_lt (w := 4) hl]
  simpa [magic] using hr

/-- What an encoder returns for a map, in whatever order it iterates over it, decodes to that map;
it fails for a name of more than 65535 bytes and for nothing else; and no input of the decoder
makes it read outside of its bytes. -/
theorem offset_codec (map : OffsetMap) (entries : List (OffsetKey × UInt64))
    (hd : (entries.map Prod.fst).Nodup)
    (hmap : ∀ key seq, map key = some seq ↔ (key, seq) ∈ entries)
    (hl : entries.length < 2 ^ 32) :
    (∀ bytes, encode entries = .ok bytes → decode bytes = .ok map) ∧
      ((∃ e, encode entries = .error e) ↔
        ∃ e ∈ entries, ∃ s ∈ keyStrings e.1, 65535 < (strBytes s).length) ∧
      ∀ bytes, decode bytes ≠ .error .outOfBounds := by
  refine ⟨fun bytes h => ?_, ?_, decode_safe⟩
  · rw [decode_encode hl h]
    congr 1
    funext key
    ext seq
    simp [foldl_insertEntry entries _ hd, hmap]
  · have he := encode_eq_ok entries
    cases hx : encode entries with
    | ok bytes =>
      have hf := ((he bytes).mp hx).1
      simpa [Fits] using hf
    | error e =>
      have hn : ¬∀ e ∈ entries, ∀ s ∈ keyStrings e.1, Fits s := fun hf => by
        simp [(he _).mpr ⟨hf, rfl⟩] at hx
      simpa [Fits] using hn

theorem offset_codec_one : ∃ bytes, encode [(("ns", "logs", "g", "c1"), 7)] = .ok bytes ∧
      decode bytes = .ok (Function.update (fun _ => none) ("ns", "logs", "g", "c1") (some 7)) := by
  have hc := offset_codec (Function.update (fun _ => none) ("ns", "logs", "g", "c1") (some 7))
    [(("ns", "logs", "g", "c1"), 7)] (by simp)
    (fun key seq => by by_cases hk : key = ("ns", "logs", "g", "c1") <;> grind) (by simp)
  exact ⟨_, rfl, hc.1 _ rfl⟩

end LogDb.Daemon.Offsets
