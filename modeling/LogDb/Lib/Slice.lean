import Mathlib

/-!
Fixed-width little-endian byte strings and the natural numbers they denote.

Random access to a byte string: exact reads, positioned writes and length changes, with the
file-system conventions that a read past the end fails and a gap is filled with zeros.
-/

namespace LogDb.Lib

open List

/-- A finite byte string, the common currency of buffers and file contents. -/
abbrev Bytes := List UInt8

/-- The low `w` bytes of `n`, least significant byte first. -/
def leBytes : ℕ → ℕ → Bytes
  | 0, _ => []
  | w + 1, n => UInt8.ofNat n :: leBytes w (n / 256)

def leVal : Bytes → ℕ
  | [] => 0
  | b :: bs => b.toNat + 256 * leVal bs

@[simp] theorem leBytes_length (w n : ℕ) : (leBytes w n).length = w := by
  induction w generalizing n with
  | zero => rfl
  | succ w ih => simp [leBytes, ih]

theorem leVal_leBytes (w n : ℕ) : leVal (leBytes w n) = n % 256 ^ w := by
  induction w generalizing n with
  | zero => simp [leBytes, leVal, Nat.mod_one]
  | succ w ih =>
    have hb : (UInt8.ofNat n).toNat = n % 256 := by simp
    rw [leBytes, leVal, ih, hb, Nat.pow_succ', Nat.mod_mul]

theorem leVal_leBytes_of_lt {w n : ℕ} (h : n < 256 ^ w) : leVal (leBytes w n) = n := by
  rw [leVal_leBytes, Nat.mod_eq_of_lt h]

theorem leVal_lt (bytes : Bytes) : leVal bytes < 256 ^ bytes.length := by
  induction bytes with
  | nil => simp [leVal]
  | cons b bytes ih =>
    have hb := b.toNat_lt
    rw [leVal, List.length_cons, Nat.pow_succ]
    omega

theorem leBytes_leVal (bytes : Bytes) : leBytes bytes.length (leVal bytes) = bytes := by
  induction bytes with
  | nil => rfl
  | cons b bytes ih =>
    have hb := b.toNat_lt
    have he : UInt8.ofNat (b.toNat + 256 * leVal bytes) = b := by
      apply UInt8.toNat.inj
      rw [UInt8.toNat_ofNat']
      omega
    rw [List.length_cons, leVal, leBytes, he, Nat.add_mul_div_left _ _ (by decide),
      Nat.div_eq_of_lt hb, Nat.zero_add, ih]

/-- The at most `len` bytes at `off`. -/
def field (off len : ℕ) (bs : Bytes) : Bytes :=
  (bs.drop off).take len

/-- The `len` bytes at `off`, or nothing when they are not all there. -/
def slice (off len : ℕ) (bs : Bytes) : Option Bytes :=
  if off + len ≤ bs.length then some (field off len bs) else none

/-- Cut or zero-extend a byte string to exactly `n` bytes. -/
def setLen (n : ℕ) (bs : Bytes) : Bytes :=
  bs.take n ++ List.replicate (n - bs.length) 0

/-- Overwrite the bytes at `off` with `xs`, extending the string when it is too short. -/
def writeAt (off : ℕ) (xs : Bytes) (bs : Bytes) : Bytes :=
  setLen off bs ++ xs ++ bs.drop (off + xs.length)

variable {off : ℕ} {bs : Bytes} {len : ℕ} {ys : Bytes} {n : ℕ} {xs : Bytes}

theorem field_flatten (pre post : List Bytes) (x : Bytes) (ho : pre.flatten.length = off)
    (hl : x.length = len) : field off len (pre ++ x :: post).flatten = x := by
  subst ho hl
  rw [flatten_append, flatten_cons, field, drop_left, take_left]

theorem field_of_parts {parts : List Bytes} {sizes : List ℕ} (hb : bs = parts.flatten)
    (hss : parts.map length = sizes) (i : ℕ) {x : Bytes} {m : ℕ} (hp : parts[i]? = some x)
    (hz : sizes[i]? = some m) : field (sizes.take i).sum m bs = x := by
  obtain ⟨hi, hx⟩ := List.getElem?_eq_some_iff.mp hp
  have hs : parts = parts.take i ++ x :: parts.drop (i + 1) := by
    rw [← hx, ← drop_eq_getElem_cons hi, take_append_drop]
  have hf := field_flatten (parts.take i) (parts.drop (i + 1)) x rfl rfl
  rw [← hs, length_flatten, map_take, hss, ← hb] at hf
  rw [← hss, getElem?_map, hp, Option.map_some, Option.some.injEq] at hz
  rw [← hz]
  exact hf

theorem field_append_left (rest : Bytes) (h : off + len ≤ bs.length) :
    field off len (bs ++ rest) = field off len bs := by
  rw [field, field, drop_append_of_le_length (by omega),
    take_append_of_le_length (by rw [length_drop]; omega)]

theorem field_take_append (rest : Bytes) (hle : n ≤ bs.length) (h : off + len ≤ n) :
    field off len (bs.take n ++ rest) = field off len bs := by
  have hf : off + len ≤ (bs.take n).length := by
    rw [length_take_of_le hle]
    exact h
  have hl := field_append_left rest hf
  have hr := field_append_left (bs.drop n) hf
  rw [take_append_drop] at hr
  rw [hl, hr]

theorem field_take (bs : Bytes) (h : off + len ≤ n) :
    field off len (bs.take n) = field off len bs := by
  rw [field, field, drop_take, take_take, min_eq_left (by omega)]

theorem field_zero (len : ℕ) (bs : Bytes) : field 0 len bs = bs.take len := by
  rw [field, drop_zero]

theorem field_add (off m n : ℕ) (bs : Bytes) :
    field off (m + n) bs = field off m bs ++ field (off + m) n bs := by
  rw [field, field, field, take_add, drop_drop]

theorem field_length (h : off + len ≤ bs.length) : (field off len bs).length = len := by
  rw [field, length_take, length_drop]
  omega

theorem leBytes_leVal_field (h : off + len ≤ bs.length) :
    leBytes len (leVal (field off len bs)) = field off len bs := by
  have hx := leBytes_leVal (field off len bs)
  rwa [field_length h] at hx

theorem field_append_right (pre bs : Bytes) (off len : ℕ) :
    field (pre.length + off) len (pre ++ bs) = field off len bs := by
  rw [field, field, drop_append, Nat.add_sub_cancel_left,
    drop_of_length_le (Nat.le_add_right _ _), nil_append]

theorem field_at (pre xs post : Bytes) : field pre.length xs.length (pre ++ (xs ++ post)) = xs := by
  rw [field, drop_left, take_left]

@[simp] theorem setLen_length (n : ℕ) (bs : Bytes) : (setLen n bs).length = n := by
  simp only [setLen, length_append, length_take, length_replicate]
  omega

theorem setLen_of_le (h : n ≤ bs.length) : setLen n bs = bs.take n := by
  simp [setLen, Nat.sub_eq_zero_of_le h]

@[simp] theorem setLen_self (bs : Bytes) : setLen bs.length bs = bs := by
  rw [setLen_of_le le_rfl, take_length]

theorem slice_eq_some_iff :
    slice off len bs = some xs ↔ off + len ≤ bs.length ∧ field off len bs = xs := by
  simp [slice]

theorem slice_append_right (pre bs : Bytes) (off len : ℕ) :
    slice (pre.length + off) len (pre ++ bs) = slice off len bs := by
  have hi : pre.length + off + len ≤ (pre ++ bs).length ↔ off + len ≤ bs.length := by
    simp only [length_append]
    omega
  simp only [slice, field, hi, drop_append, Nat.add_sub_cancel_left]
  rw [drop_of_length_le (by omega : pre.length ≤ pre.length + off), nil_append]

theorem slice_append_left {pre : Bytes} (post : Bytes) (h : off + len ≤ pre.length) :
    slice off len (pre ++ post) = slice off len pre := by
  have hle : off + len ≤ (pre ++ post).length := by
    rw [length_append]
    omega
  rw [slice, slice, if_pos hle, if_pos h, field_append_left post h]

theorem writeAt_end (bs xs : Bytes) : writeAt bs.length xs bs = bs ++ xs := by
  simp [writeAt]

theorem writeAt_append (pre mid post xs : Bytes) (h : mid.length = xs.length) :
    writeAt pre.length xs (pre ++ mid ++ post) = pre ++ xs ++ post := by
  have hs : setLen pre.length (pre ++ mid ++ post) = pre := by
    rw [setLen_of_le (by simp only [length_append]; omega), append_assoc, take_left]
  have hd : (pre ++ mid ++ post).drop (pre.length + xs.length) = post := by
    rw [← h, ← length_append, drop_left]
  rw [writeAt, hs, hd]

theorem le_length_of_field (h : field off ys.length bs = ys) (hne : ys ≠ []) :
    off + ys.length ≤ bs.length := by
  have hl := congrArg length h
  have hp := length_pos_iff.mpr hne
  simp only [field, length_take, length_drop] at hl
  omega

theorem field_writeAt_self (off : ℕ) (xs bs : Bytes) : field off xs.length (writeAt off xs bs) = xs := by
  have ha := field_at (setLen off bs) xs (bs.drop (off + xs.length))
  rwa [setLen_length, ← append_assoc] at ha

theorem field_writeAt_before {pos : ℕ} (xs : Bytes) (h : field off ys.length bs = ys)
    (hp : off + ys.length ≤ pos) : field off ys.length (writeAt pos xs bs) = ys := by
  by_cases hn : ys = []
  · rw [hn]
    rfl
  · have hle := le_length_of_field h hn
    unfold writeAt setLen
    rw [append_assoc, append_assoc, field_append_left _ (by rw [length_take]; omega),
      field_take _ hp, h]

theorem field_writeAt_after {pos : ℕ} (h : field off ys.length bs = ys)
    (hp : pos + xs.length ≤ off) : field off ys.length (writeAt pos xs bs) = ys := by
  by_cases hn : ys = []
  · rw [hn]
    rfl
  · have hle := le_length_of_field h hn
    have hf : (setLen pos bs ++ xs).length = pos + xs.length := by
      rw [length_append, setLen_length]
    have hd : (writeAt pos xs bs).drop (pos + xs.length) = bs.drop (pos + xs.length) := by
      unfold writeAt
      exact drop_left' hf
    obtain ⟨gap, rfl⟩ := Nat.exists_eq_add_of_le hp
    have hs : (writeAt pos xs bs).drop (pos + xs.length + gap) =
        bs.drop (pos + xs.length + gap) := by
      rw [← drop_drop, hd, drop_drop]
    rw [field, hs]
    exact h

theorem field_adjacent (hx : field off xs.length bs = xs)
    (hy : field (off + xs.length) ys.length bs = ys) :
    field off (xs ++ ys).length bs = xs ++ ys := by
  rw [length_append, field, take_add, drop_drop]
  exact congrArg₂ (· ++ ·) hx hy

end LogDb.Lib
