import LogDb.Daemon.OffsetStore
import LogDb.Daemon.Storage

/-!
The checkpoint file of the sequence map. Its parser looks at the length of the file once and then
reads what the counts announce; a read past the end panics.
-/

namespace LogDb.Daemon.SeqMapFile

open Lib List RecordReader Offsets

variable {α β : Type}

def magic : Bytes := [0x4C, 0x44, 0x53, 0x43]

/-- The cursors, for each stream its sequence numbers with their ids, and for each stream the next
sequence number. -/
abbrev Lists := List ℕ × List (ℕ × List (ℕ × ℕ)) × List (ℕ × ℕ)

/-! ## Writing -/

def writeBoth (enc : α → Bytes) (enc' : β → Bytes) (p : α × β) : Bytes :=
  enc p.1 ++ enc' p.2

def writeCounted (enc : α → Bytes) (as : List α) : Bytes :=
  leBytes 8 as.length ++ as.flatMap enc

def writePair : ℕ × ℕ → Bytes :=
  writeBoth (leBytes 8) (leBytes 8)

def writeStream : ℕ × List (ℕ × ℕ) → Bytes :=
  writeBoth (leBytes 8) (writeCounted writePair)

def writeLists : Lists → Bytes :=
  writeBoth (flatMap (leBytes 8)) (writeBoth (writeCounted writeStream) (writeCounted writePair))

/-- The first local sequence of each shard behind all ids of the map. -/
def shardMax (n : ℕ) (m : SeqMap) : List ℕ :=
  (m.entries.flatMap fun e => e.2.entries).foldl
    (fun cursors e => cursors.modify (splitGid n e.2).1 (max (((splitGid n e.2).2 + 1) % 2 ^ 64)))
    (replicate n 0)

def listsOf (n : ℕ) (m : SeqMap) (nexts : NextSeqs) : Lists :=
  (shardMax n m, m.entries.map fun e => (e.1.toNat, e.2.entries),
    nexts.entries.map fun e => (e.1.toNat, e.2))

def writeSeqMapCheckpoint (n : ℕ) (m : SeqMap) (nexts : NextSeqs) : Bytes :=
  magic ++ (leBytes 4 1 ++ (leBytes 4 n ++ writeLists (listsOf n m nexts)))

/-! ## Parsing -/

def readBoth (r : RecordReader α) (s : RecordReader β) : RecordReader (α × β) := do
  return (← r, ← s)

def readList (r : RecordReader α) : ℕ → RecordReader (List α)
  | 0 => return []
  | count + 1 => do
    let (a, as) ← readBoth r (readList r count)
    return a :: as

def readCounted (r : RecordReader α) : RecordReader (List α) := do
  readList r (← readU64)

def readPair : RecordReader (ℕ × ℕ) :=
  readBoth readU64 readU64

def readStream : RecordReader (ℕ × List (ℕ × ℕ)) :=
  readBoth readU64 (readCounted readPair)

def readLists (n : ℕ) : RecordReader Lists :=
  readBoth (readList readU64 n) (readBoth (readCounted readStream) (readCounted readPair))

inductive Outcome where
  | ok (cursors : List ℕ) (seqMap : UInt64 → Option (SortedMap ℕ ℕ)) (nexts : UInt64 → Option ℕ)
  | badMagic
  | unknownVersion
  | shardCountMismatch
  | panicked

def restore (b : Lists) : Outcome :=
  .ok b.1
    ((b.2.1.map fun e => (UInt64.ofNat e.1,
      e.2.foldl (fun m e => m.insert e.1 e.2) (∅ : SortedMap ℕ ℕ))).foldl insertEntry fun _ => none)
    ((b.2.2.map fun e => (UInt64.ofNat e.1, e.2)).foldl insertEntry fun _ => none)

def parse (n : ℕ) (raw : Bytes) : Outcome :=
  if raw.length < 20 ∨ raw.take 4 ≠ magic then .badMagic
  else if leVal (field 4 4 raw) ≠ 1 then .unknownVersion
  else if leVal (field 8 4 raw) ≠ n then .shardCountMismatch
  else
    match readLists n (raw.drop 12) with
    | .ok (b, _) => restore b
    | .error _ => .panicked

/-! ## What the readers accept -/

/-- The reader accepts the encodings of the values with `P`, and nothing else. -/
def Reads (r : RecordReader α) (enc : α → Bytes) (P : α → Prop) : Prop :=
  ∀ raw a rest, r raw = .ok (a, rest) ↔ P a ∧ raw = enc a ++ rest

theorem reads_readNat (w : ℕ) : Reads (readNat w) (leBytes w) (· < 256 ^ w) := by
  intro raw a rest
  constructor
  · intro h
    refine ⟨readNat_lt h, ?_⟩
    obtain ⟨bytes, mid, hb, h⟩ := bind_eq_ok.mp h
    obtain ⟨rfl, rfl⟩ := Prod.mk.inj (Except.ok.inj h)
    rw [← readBytes_length hb, leBytes_leVal]
    unfold readBytes at hb
    split_ifs at hb
    obtain ⟨rfl, rfl⟩ := Prod.mk.inj (Except.ok.inj hb)
    exact (take_append_drop _ _).symm
  · rintro ⟨hl, rfl⟩
    exact readNat_leBytes rest hl

section

variable {r : RecordReader α} {s : RecordReader β} {enc : α → Bytes} {enc' : β → Bytes}
  {P : α → Prop} {Q : β → Prop}

theorem Reads.both (h : Reads r enc P) (h' : Reads s enc' Q) :
    Reads (readBoth r s) (writeBoth enc enc') fun p => P p.1 ∧ Q p.2 := by
  intro raw p rest
  simp only [readBoth, bind_eq_ok, h _ _ _, h' _ _ _]
  constructor
  · rintro ⟨a, mid, ⟨ha, rfl⟩, b, mid', ⟨hb, rfl⟩, hp⟩
    obtain ⟨rfl, rfl⟩ := Prod.mk.inj (Except.ok.inj hp)
    exact ⟨⟨ha, hb⟩, (append_assoc ..).symm⟩
  · rintro ⟨⟨ha, hb⟩, rfl⟩
    exact ⟨p.1, _, ⟨ha, append_assoc ..⟩, p.2, rest, ⟨hb, rfl⟩, rfl⟩

theorem Reads.list (h : Reads r enc P) (n : ℕ) :
    Reads (readList r n) (flatMap enc) fun as => as.length = n ∧ ∀ a ∈ as, P a := by
  induction n with
  | zero =>
    intro raw as rest
    simp only [readList, length_eq_zero_iff]
    constructor
    · intro ho
      obtain ⟨rfl, rfl⟩ := Prod.mk.inj (Except.ok.inj ho)
      simp
    · rintro ⟨⟨rfl, -⟩, rfl⟩
      rfl
  | succ n ih =>
    intro raw as rest
    simp only [readList, bind_eq_ok, h.both ih _ _ _]
    constructor
    · rintro ⟨⟨a, as'⟩, mid, ⟨⟨ha, hl, hp⟩, rfl⟩, ho⟩
      obtain ⟨rfl, rfl⟩ := Prod.mk.inj (Except.ok.inj ho)
      simpa [writeBoth, hl, ha] using hp
    · rintro ⟨⟨hl, hp⟩, rfl⟩
      obtain ⟨a, as, rfl⟩ := exists_cons_of_length_eq_add_one hl
      refine ⟨(a, as), rest, ⟨⟨hp a mem_cons_self, by simpa using hl, ?_⟩, ?_⟩, rfl⟩
      · exact fun x hx => hp x (mem_cons_of_mem a hx)
      · simp [writeBoth]

theorem Reads.counted (h : Reads r enc P) :
    Reads (readCounted r) (writeCounted enc) fun as => as.length < 2 ^ 64 ∧ ∀ a ∈ as, P a := by
  intro raw as rest
  simp only [readCounted, readU64, bind_eq_ok, reads_readNat 8 _ _ _, h.list _ _ _ _]
  constructor
  · rintro ⟨n, mid, ⟨hn, rfl⟩, ⟨rfl, hp⟩, rfl⟩
    exact ⟨⟨hn, hp⟩, (append_assoc ..).symm⟩
  · rintro ⟨⟨hl, hp⟩, rfl⟩
    exact ⟨_, _, ⟨hl, append_assoc ..⟩, ⟨rfl, hp⟩, rfl⟩

end

/-- The counts and the numbers have room in 64 bits, and there is a cursor for every shard. -/
def Fits (n : ℕ) (b : Lists) : Prop :=
  (b.1.length = n ∧ ∀ c ∈ b.1, c < 256 ^ 8) ∧
    (b.2.1.length < 2 ^ 64 ∧ ∀ e ∈ b.2.1, e.1 < 256 ^ 8 ∧ e.2.length < 2 ^ 64 ∧
      ∀ p ∈ e.2, p.1 < 256 ^ 8 ∧ p.2 < 256 ^ 8) ∧
    b.2.2.length < 2 ^ 64 ∧ ∀ p ∈ b.2.2, p.1 < 256 ^ 8 ∧ p.2 < 256 ^ 8

theorem reads_readLists (n : ℕ) : Reads (readLists n) writeLists (Fits n) := by
  have hp : Reads readPair writePair _ := (reads_readNat 8).both (reads_readNat 8)
  have hs : Reads readStream writeStream _ := (reads_readNat 8).both hp.counted
  exact ((reads_readNat 8).list n).both (hs.counted.both hp.counted)

/-- The front of the file is refused, or all that its counts announce is there. -/
def Complete (n : ℕ) (raw : Bytes) : Prop :=
  raw.length < 20 ∨ raw.take 4 ≠ magic ∨ leVal (field 4 4 raw) ≠ 1 ∨
    leVal (field 8 4 raw) ≠ n ∨ ∃ b rest, Fits n b ∧ raw.drop 12 = writeLists b ++ rest

theorem parse_ne_panicked (n : ℕ) (raw : Bytes) : parse n raw ≠ .panicked ↔ Complete n raw := by
  have hr := reads_readLists n (raw.drop 12)
  unfold parse Complete
  split_ifs with hm hv hn
  · simp [← or_assoc, hm]
  · simp [hv]
  · simp [hn]
  · rw [not_or, not_not] at hm
    simp only [hm, not_not.mp hv, not_not.mp hn, ne_eq, not_true, false_or, ← hr]
    cases readLists n (raw.drop 12) with
    | ok p =>
      obtain ⟨b, rest⟩ := p
      exact ⟨fun _ => ⟨b, rest, rfl⟩, fun _ => by simp [restore]⟩
    | error e => simp

/-! ## Round trip -/

theorem foldl_entries {β : Type} (m : AList fun _ : UInt64 => β) :
    (m.entries.map fun e => (e.1, e.2)).foldl insertEntry (fun _ => none) = m.lookup := by
  have hd : ((m.entries.map fun e => (e.1, e.2)).map Prod.fst).Nodup := by
    rw [map_map]
    exact m.keys_nodup
  funext key
  ext v
  simp [foldl_insertEntry _ _ hd, ← AList.mem_lookup_iff]

theorem parse_write {n : ℕ} {m : SeqMap} {nexts : NextSeqs} (hn : n < 2 ^ 32)
    (hf : Fits n (listsOf n m nexts)) :
    parse n (writeSeqMapCheckpoint n m nexts) = .ok (shardMax n m) m.lookup nexts.lookup := by
  set raw := writeSeqMapCheckpoint n m nexts with ha
  have hr := (reads_readLists n (writeLists (listsOf n m nexts)) _ []).mpr ⟨hf, by simp⟩
  have hd : raw.drop 12 = writeLists (listsOf n m nexts) := by
    rw [ha, writeSeqMapCheckpoint, ← append_assoc, ← append_assoc]
    exact drop_left' (by simp [magic])
  have hl : 20 ≤ raw.length := by
    simp [ha, writeSeqMapCheckpoint, writeLists, writeBoth, writeCounted, magic]
    omega
  have hv : leVal (field 4 4 raw) = 1 := by
    rw [ha, writeSeqMapCheckpoint, field, drop_left' (by rfl), take_left' (leBytes_length ..)]
    rfl
  have hc : leVal (field 8 4 raw) = n := by
    rw [ha, writeSeqMapCheckpoint, ← append_assoc, field, drop_left' (by rfl),
      take_left' (leBytes_length ..), leVal_leBytes_of_lt hn]
  rw [parse, if_neg (by simpa using ⟨hl, rfl⟩), if_neg (not_not.mpr hv), if_neg (not_not.mpr hc),
    hd, hr]
  simp [restore, listsOf, map_map, SortedMap.foldl_insert_entries, ← foldl_entries,
    Function.comp_def]

/-- A checkpoint file is parsed without a panic exactly when it is complete or its front is refused;
and what was written is restored. -/
theorem seq_map_checkpoint (n : ℕ) : (∀ raw, parse n raw ≠ .panicked ↔ Complete n raw) ∧
      ∀ m nexts, n < 2 ^ 32 → Fits n (listsOf n m nexts) →
        parse n (writeSeqMapCheckpoint n m nexts) = .ok (shardMax n m) m.lookup nexts.lookup :=
  ⟨parse_ne_panicked n, fun _ _ => parse_write⟩

theorem seq_map_checkpoint_one : let m : SeqMap := (∅ : SeqMap).store 3 1 4
    parse 2 (writeSeqMapCheckpoint 2 m ∅) = .ok [3, 0] m.lookup fun _ => none :=
  (seq_map_checkpoint 2).2 _ ∅ (by decide) (by unfold Fits; decide)

/-- The cursor of the only shard is there, but no count of streams. -/
theorem seq_map_checkpoint_cut :
    parse 1 (magic ++ (leBytes 4 1 ++ (leBytes 4 1 ++ leBytes 8 0))) = .panicked :=
  rfl

end LogDb.Daemon.SeqMapFile
