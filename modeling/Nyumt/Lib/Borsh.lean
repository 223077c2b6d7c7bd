import Mathlib.Data.Vector.Basic
import Mathlib.Tactic.NormNum
import Mathlib.Tactic.SplitIfs

/-!
# The borsh format

A value is its fields' bytes one after another: an integer little-endian, a list or a string
after its length in four bytes, a variant after its index in one byte. Writing fails where a
length does not fit its four bytes, and reading where the bytes do not come from writing
(`ser_of_fromSlice`), so a value has one encoding and an encoding one value, up to the skipped
fields `reset` puts at their default.
-/

universe u

abbrev Bytes := List UInt8

/-- A type with a borsh encoding. Reading what was written gives the value `reset`, and only what
was written can be read. -/
class Borsh (α : Type u) where
  ser : α → Option Bytes
  de : Bytes → Option (α × Bytes)
  reset : α → α
  de_ser {x : α} {b : Bytes} (r : Bytes) : ser x = some b → de (b ++ r) = some (reset x, r)
  ser_de {b r : Bytes} {x : α} : de b = some (x, r) → reset x = x ∧ ∃ p, ser x = some p ∧ b = p ++ r

namespace Borsh

variable {α β : Type u}

/-- `try_to_vec`. -/
def toVec [Borsh α] (x : α) : Option Bytes := ser x

/-- `try_from_slice`: nothing may follow the value. -/
def fromSlice (α : Type u) [Borsh α] (b : Bytes) : Option α :=
  match de b with
  | some (x, []) => some x
  | _ => none

section Slice

variable [Borsh α]

theorem fromSlice_of_ser {x : α} {b : Bytes} (h : toVec x = some b) :
    fromSlice α b = some (reset x) := by
  have := de_ser [] h
  rw [List.append_nil] at this
  simp [fromSlice, this]

theorem of_fromSlice {x : α} {b : Bytes} (h : fromSlice α b = some x) :
    reset x = x ∧ toVec x = some b := by
  unfold fromSlice at h
  split at h
  · rename_i y hd
    simp only [Option.some.injEq] at h
    subst h
    obtain ⟨hr, p, hp, rfl⟩ := ser_de hd
    exact ⟨hr, by rw [List.append_nil]; exact hp⟩
  · simp at h

/-- A byte string that is read is the encoding of what it is read as. -/
theorem ser_of_fromSlice {x : α} {b : Bytes} (h : fromSlice α b = some x) : toVec x = some b :=
  (of_fromSlice h).2

/-- A value read back is written as it was. -/
theorem toVec_reset {x : α} {b : Bytes} (h : toVec x = some b) : toVec (reset x) = some b :=
  ser_of_fromSlice (fromSlice_of_ser h)

/-- Two values with one encoding differ in skipped fields only. -/
theorem reset_eq_of_toVec_eq {x y : α} {b : Bytes} (hx : toVec x = some b)
    (hy : toVec y = some b) : reset x = reset y := by
  have := (fromSlice_of_ser hx).symm.trans (fromSlice_of_ser hy)
  simpa using this

end Slice

section Integers

/-- The low `w` bytes of `n`, least first. -/
def leBytes : ℕ → ℕ → Bytes
  | 0, _ => []
  | w + 1, n => UInt8.ofNat (n % 256) :: leBytes w (n / 256)

def ofLE : Bytes → ℕ
  | [] => 0
  | b :: bs => b.toNat + 256 * ofLE bs

@[simp] theorem length_leBytes : ∀ w n : ℕ, (leBytes w n).length = w
  | 0, _ => rfl
  | w + 1, n => by simp [leBytes, length_leBytes w]

theorem ofLE_leBytes : ∀ w n : ℕ, n < 256 ^ w → ofLE (leBytes w n) = n
  | 0, n, h => by
    have : n = 0 := by simpa using h
    simp [leBytes, ofLE, this]
  | w + 1, n, h => by
    have hd : n / 256 < 256 ^ w := by
      rw [Nat.div_lt_iff_lt_mul (by norm_num), ← pow_succ]
      exact h
    have hm : (UInt8.ofNat (n % 256)).toNat = n % 256 := by
      rw [UInt8.toNat_ofNat']
      omega
    simp only [leBytes, ofLE, hm, ofLE_leBytes w _ hd]
    omega

theorem leBytes_ofLE : ∀ b : Bytes, leBytes b.length (ofLE b) = b
  | [] => rfl
  | b :: bs => by
    have hb := b.toNat_lt
    have hm : (b.toNat + 256 * ofLE bs) % 256 = b.toNat := by omega
    have hd : (b.toNat + 256 * ofLE bs) / 256 = ofLE bs := by omega
    simp only [List.length_cons, leBytes, ofLE, hm, hd, leBytes_ofLE bs, UInt8.ofNat_toNat]

theorem ofLE_lt : ∀ b : Bytes, ofLE b < 256 ^ b.length
  | [] => by simp [ofLE]
  | b :: bs => by
    have hb := b.toNat_lt
    have := ofLE_lt bs
    simp only [ofLE, List.length_cons, pow_succ]
    omega

/-- The next `w` bytes. -/
def take? (w : ℕ) (b : Bytes) : Option (Bytes × Bytes) :=
  if w ≤ b.length then some (b.take w, b.drop w) else none

theorem take?_append {w : ℕ} {p : Bytes} (r : Bytes) (h : p.length = w) :
    take? w (p ++ r) = some (p, r) := by
  subst h
  simp [take?]

theorem of_take? {w : ℕ} {b p r : Bytes} (h : take? w b = some (p, r)) :
    p.length = w ∧ b = p ++ r := by
  unfold take? at h
  split_ifs at h with hw
  simp only [Option.some.injEq, Prod.mk.injEq] at h
  obtain ⟨rfl, rfl⟩ := h
  exact ⟨List.length_take_of_le hw, (List.take_append_drop w b).symm⟩

/-- An integer of `w` bytes. -/
def readLE (w : ℕ) (b : Bytes) : Option (ℕ × Bytes) :=
  (take? w b).map fun p => (ofLE p.1, p.2)

theorem readLE_leBytes {w n : ℕ} (r : Bytes) (h : n < 256 ^ w) :
    readLE w (leBytes w n ++ r) = some (n, r) := by
  simp [readLE, take?_append r (length_leBytes w n), ofLE_leBytes w n h]

theorem of_readLE {w n : ℕ} {b r : Bytes} (h : readLE w b = some (n, r)) :
    n < 256 ^ w ∧ b = leBytes w n ++ r := by
  obtain ⟨⟨p, q⟩, hp, hq⟩ := Option.map_eq_some_iff.1 h
  simp only [Prod.mk.injEq] at hq
  obtain ⟨rfl, rfl⟩ := hq
  obtain ⟨rfl, rfl⟩ := of_take? hp
  exact ⟨ofLE_lt p, by rw [leBytes_ofLE]⟩

/-- An integer type read and written through its value, of `w` bytes. -/
@[reducible] def ofNatLt (w : ℕ) (toN : α → ℕ) (ofN : ℕ → α) (lt : ∀ x, toN x < 256 ^ w)
    (left : ∀ x, ofN (toN x) = x) (right : ∀ n < 256 ^ w, toN (ofN n) = n) : Borsh α where
  ser x := some (leBytes w (toN x))
  de b := (readLE w b).map fun p => (ofN p.1, p.2)
  reset := id
  de_ser {x b} r h := by
    simp only [Option.some.injEq] at h
    subst h
    simp [readLE_leBytes r (lt x), left]
  ser_de {b r x} h := by
    obtain ⟨⟨n, q⟩, hp, hq⟩ := Option.map_eq_some_iff.1 h
    simp only [Prod.mk.injEq] at hq
    obtain ⟨rfl, rfl⟩ := hq
    obtain ⟨hn, rfl⟩ := of_readLE hp
    exact ⟨rfl, _, rfl, by rw [right n hn]⟩

instance : Borsh UInt8 :=
  ofNatLt 1 UInt8.toNat UInt8.ofNat (fun x => x.toNat_lt) (fun _ => UInt8.ofNat_toNat)
    fun n h => by rw [UInt8.toNat_ofNat']; omega

instance : Borsh UInt32 :=
  ofNatLt 4 UInt32.toNat UInt32.ofNat (fun x => x.toNat_lt) (fun _ => UInt32.ofNat_toNat)
    fun n h => by rw [UInt32.toNat_ofNat']; omega

instance : Borsh UInt64 :=
  ofNatLt 8 UInt64.toNat UInt64.ofNat (fun x => x.toNat_lt) (fun _ => UInt64.ofNat_toNat)
    fun n h => by rw [UInt64.toNat_ofNat']; omega

/-- `i64`: the bytes of its two's complement. -/
instance : Borsh Int64 :=
  ofNatLt 8 (fun x => x.toUInt64.toNat) (fun n => (UInt64.ofNat n).toInt64)
    (fun x => x.toUInt64.toNat_lt) (fun x => by rw [UInt64.ofNat_toNat, Int64.toInt64_toUInt64])
    fun n h => by rw [UInt64.toUInt64_toInt64, UInt64.toNat_ofNat']; omega

end Integers

section Enumerations

/-- A type of variants without fields, each its index. -/
@[reducible] def ofTag (tag : α → UInt8) (untag : UInt8 → Option α)
    (h : ∀ t x, untag t = some x ↔ tag x = t) : Borsh α where
  ser x := some [tag x]
  de
    | [] => none
    | t :: r => (untag t).map (·, r)
  reset := id
  de_ser {x b} r hb := by
    simp only [Option.some.injEq] at hb
    subst hb
    simp [(h (tag x) x).2 rfl]
  ser_de {b r x} hb := by
    rcases b with _ | ⟨t, b⟩
    · simp at hb
    obtain ⟨y, hy, hq⟩ := Option.map_eq_some_iff.1 hb
    simp only [Prod.mk.injEq] at hq
    obtain ⟨rfl, rfl⟩ := hq
    exact ⟨rfl, [t], by rw [(h t y).1 hy], rfl⟩

/-- An enumeration of the variants `xs`, each its index in the list. -/
@[reducible] def ofVariants [DecidableEq α] (xs : List α) (nodup : xs.Nodup) (mem : ∀ x, x ∈ xs)
    (len : xs.length ≤ 256) : Borsh α :=
  ofTag (fun x => UInt8.ofNat (xs.idxOf x)) (fun t => xs[t.toNat]?) fun t x => by
    have hx := List.idxOf_lt_length_of_mem (mem x)
    have hto : (UInt8.ofNat (xs.idxOf x)).toNat = xs.idxOf x := by
      rw [UInt8.toNat_ofNat']
      omega
    constructor
    · intro h
      obtain ⟨ht, rfl⟩ := List.getElem?_eq_some_iff.1 h
      rw [nodup.idxOf_getElem, UInt8.ofNat_toNat]
    · rintro rfl
      rw [hto, List.getElem?_eq_getElem hx, List.getElem_idxOf]

/-- `bool` is strict: any byte but 0 and 1 is refused. -/
instance : Borsh Bool :=
  ofVariants [false, true] (by decide) (by decide) (by decide)

end Enumerations

section Sequences

variable [Borsh α] [Borsh β]

/-- Fields one after another. -/
instance : Borsh (α × β) where
  ser x := do
    let a ← ser x.1
    let b ← ser x.2
    return a ++ b
  de b := do
    let (x, r) ← de b
    let (y, r) ← de r
    return ((x, y), r)
  reset x := (reset x.1, reset x.2)
  de_ser {x b} r h := by
    simp only [Option.bind_eq_bind, Option.bind_eq_some_iff, Option.pure_def,
      Option.some.injEq] at h
    obtain ⟨a, ha, c, hc, rfl⟩ := h
    simp [List.append_assoc, de_ser _ ha, de_ser _ hc]
  ser_de {b r x} h := by
    simp only [Option.bind_eq_bind, Option.bind_eq_some_iff, Option.pure_def, Option.some.injEq,
      Prod.mk.injEq, Prod.exists] at h
    obtain ⟨y, r₁, hy, z, r₂, hz, rfl, rfl⟩ := h
    obtain ⟨hry, p, hp, rfl⟩ := ser_de hy
    obtain ⟨hrz, q, hq, rfl⟩ := ser_de hz
    exact ⟨by rw [hry, hrz], p ++ q, by simp [hp, hq], by rw [List.append_assoc]⟩

def serAll : List α → Option Bytes
  | [] => some []
  | x :: xs => do
    let a ← ser x
    let b ← serAll xs
    return a ++ b

def deAll (α : Type u) [Borsh α] : ℕ → Bytes → Option (List α × Bytes)
  | 0, b => some ([], b)
  | n + 1, b => do
    let (x, r) ← de b
    let (xs, r) ← deAll α n r
    return (x :: xs, r)

theorem deAll_serAll : ∀ (xs : List α) {b : Bytes} (r : Bytes), serAll xs = some b →
    deAll α xs.length (b ++ r) = some (xs.map reset, r)
  | [], b, r, h => by
    simp only [serAll, Option.some.injEq] at h
    subst h
    rfl
  | x :: xs, b, r, h => by
    simp only [serAll, Option.bind_eq_bind, Option.bind_eq_some_iff, Option.pure_def,
      Option.some.injEq] at h
    obtain ⟨a, ha, c, hc, rfl⟩ := h
    simp [deAll, List.append_assoc, de_ser _ ha, deAll_serAll xs r hc]

theorem of_deAll : ∀ (n : ℕ) {b r : Bytes} {xs : List α}, deAll α n b = some (xs, r) →
    xs.length = n ∧ xs.map reset = xs ∧ ∃ p, serAll xs = some p ∧ b = p ++ r
  | 0, b, r, xs, h => by
    simp only [deAll, Option.some.injEq, Prod.mk.injEq] at h
    obtain ⟨rfl, rfl⟩ := h
    exact ⟨rfl, rfl, [], rfl, rfl⟩
  | n + 1, b, r, xs, h => by
    simp only [deAll, Option.bind_eq_bind, Option.bind_eq_some_iff, Option.pure_def,
      Option.some.injEq, Prod.mk.injEq, Prod.exists] at h
    obtain ⟨x, r₁, hx, ys, r₂, hys, rfl, rfl⟩ := h
    obtain ⟨hrx, p, hp, rfl⟩ := ser_de hx
    obtain ⟨hl, hrs, q, hq, rfl⟩ := of_deAll n hys
    exact ⟨by simp [hl], by simp [hrx, hrs], p ++ q, by simp [serAll, hp, hq],
      by rw [List.append_assoc]⟩

/-- `Vec`: the length in four bytes, then the elements. -/
instance : Borsh (List α) where
  ser xs := if xs.length < 256 ^ 4 then (serAll xs).map (leBytes 4 xs.length ++ ·) else none
  de b := (readLE 4 b).bind fun p => deAll α p.1 p.2
  reset := List.map reset
  de_ser {xs b} r h := by
    split_ifs at h with hl
    obtain ⟨c, hc, rfl⟩ := Option.map_eq_some_iff.1 h
    rw [List.append_assoc, readLE_leBytes _ hl]
    exact deAll_serAll xs r hc
  ser_de {b r xs} h := by
    obtain ⟨⟨n, q⟩, hn, hd⟩ := Option.bind_eq_some_iff.1 h
    obtain ⟨hlt, rfl⟩ := of_readLE hn
    obtain ⟨rfl, hr, p, hp, rfl⟩ := of_deAll n hd
    exact ⟨hr, leBytes 4 xs.length ++ p, by rw [if_pos hlt, hp]; rfl, by rw [List.append_assoc]⟩

theorem toVec_prod {x : α × β} {b : Bytes} (h : toVec x = some b) :
    (∃ a, toVec x.1 = some a) ∧ ∃ a, toVec x.2 = some a := by
  obtain ⟨a, ha, h⟩ := Option.bind_eq_some_iff.1 h
  obtain ⟨c, hc, -⟩ := Option.bind_eq_some_iff.1 h
  exact ⟨⟨a, ha⟩, c, hc⟩

theorem serAll_mem : ∀ {xs : List α} {b : Bytes}, serAll xs = some b →
    ∀ x ∈ xs, ∃ a, toVec x = some a
  | y :: xs, b, h, x, hx => by
    obtain ⟨a, ha, h⟩ := Option.bind_eq_some_iff.1 h
    obtain ⟨c, hc, -⟩ := Option.bind_eq_some_iff.1 h
    rcases List.mem_cons.1 hx with rfl | hx
    · exact ⟨a, ha⟩
    · exact serAll_mem hc x hx

/-- What is written as a whole is written element by element. -/
theorem toVec_mem {xs : List α} {b : Bytes} (h : toVec xs = some b) :
    ∀ x ∈ xs, ∃ a, toVec x = some a := by
  unfold toVec ser at h
  change (if _ then _ else _) = _ at h
  split_ifs at h
  obtain ⟨c, hc, -⟩ := Option.map_eq_some_iff.1 h
  exact serAll_mem hc

/-- `[u8; n]`: the bytes alone. -/
instance (n : ℕ) : Borsh (List.Vector UInt8 n) where
  ser v := some v.toList
  de b := if h : n ≤ b.length then some (⟨b.take n, List.length_take_of_le h⟩, b.drop n) else none
  reset := id
  de_ser {v b} r h := by
    simp only [Option.some.injEq] at h
    subst h
    have hl := v.toList_length
    rw [dif_pos (by simp [hl])]
    exact congrArg some (Prod.ext (List.Vector.eq _ _ (List.take_left' hl)) (List.drop_left' hl))
  ser_de {b r v} h := by
    split_ifs at h with hl
    simp only [Option.some.injEq] at h
    obtain ⟨rfl, rfl⟩ := h
    exact ⟨rfl, _, rfl, (List.take_append_drop n b).symm⟩

end Sequences

section Composite

/-- A struct through the tuple of its fields that are not skipped. -/
@[reducible] def via [Borsh β] (f : α → β) (g : β → α) (h : ∀ y, f (g y) = y) : Borsh α where
  ser x := ser (f x)
  de b := (de b).map fun p => (g p.1, p.2)
  reset x := g (reset (f x))
  de_ser {x b} r hb := by simp [de_ser r hb]
  ser_de {b r x} hb := by
    obtain ⟨⟨y, q⟩, hd, hq⟩ := Option.map_eq_some_iff.1 hb
    simp only [Prod.mk.injEq] at hq
    obtain ⟨rfl, rfl⟩ := hq
    obtain ⟨hr, p, hp, rfl⟩ := ser_de hd
    exact ⟨by rw [h, hr], p, by rw [h]; exact hp, rfl⟩

/-- A variant with fields: its index, then the fields. -/
def variant [Borsh β] (t : UInt8) (x : β) : Option Bytes := (ser x).map (t :: ·)

def payload [Borsh β] (f : β → α) (b : Bytes) : Option (α × Bytes) :=
  (de b).map fun p => (f p.1, p.2)

theorem of_variant [Borsh β] {t : UInt8} {x : β} {b : Bytes} (h : variant t x = some b) :
    ∃ p, ser x = some p ∧ b = t :: p := by
  obtain ⟨p, hp, rfl⟩ := Option.map_eq_some_iff.1 h
  exact ⟨p, hp, rfl⟩

theorem payload_ser [Borsh β] {f : β → α} {x : β} {p : Bytes} (r : Bytes) (h : ser x = some p) :
    payload f (p ++ r) = some (f (reset x), r) := by
  simp [payload, de_ser r h]

theorem of_payload [Borsh β] {f : β → α} {b r : Bytes} {y : α} (h : payload f b = some (y, r)) :
    ∃ x, y = f x ∧ reset x = x ∧ ∃ p, ser x = some p ∧ b = p ++ r := by
  obtain ⟨⟨x, q⟩, hd, hq⟩ := Option.map_eq_some_iff.1 h
  simp only [Prod.mk.injEq] at hq
  obtain ⟨rfl, rfl⟩ := hq
  exact ⟨x, rfl, ser_de hd⟩

/-- `Option`: a byte 0, or a byte 1 and the value. -/
instance [Borsh α] : Borsh (Option α) where
  ser
    | none => some [0]
    | some x => variant 1 x
  de
    | 0 :: r => some (none, r)
    | 1 :: r => payload some r
    | _ => none
  reset := Option.map reset
  de_ser {x b} r h := by
    rcases x with _ | x
    · simp only [Option.some.injEq] at h
      subst h
      rfl
    · obtain ⟨p, hp, rfl⟩ := of_variant h
      exact payload_ser r hp
  ser_de {b r x} h := by
    split at h
    · simp only [Option.some.injEq, Prod.mk.injEq] at h
      obtain ⟨rfl, rfl⟩ := h
      exact ⟨rfl, [0], rfl, rfl⟩
    · obtain ⟨y, rfl, hy, p, hp, rfl⟩ := of_payload h
      exact ⟨congrArg some hy, 1 :: p, by simp [variant, hp], rfl⟩
    · simp at h

/-- `String`: its UTF-8 bytes after their number; other bytes are refused. -/
instance : Borsh String where
  ser s := ser s.toByteArray.data.toList
  de b := (de b).bind fun p => (String.fromUTF8? ⟨⟨p.1⟩⟩).map (·, p.2)
  reset := id
  de_ser {s b} r h := by
    rw [de_ser r h]
    have hid : ∀ l : Bytes, reset l = l := fun l => List.map_id l
    simp only [Option.bind_some, id_eq, Option.map_eq_some_iff, Prod.mk.injEq, and_true,
      exists_eq_right]
    rw [hid]
    simp only [Array.toArray_toList, String.fromUTF8?]
    rw [dif_pos s.isValidUTF8]
    rfl
  ser_de {b r s} h := by
    obtain ⟨⟨l, q⟩, hd, hs⟩ := Option.bind_eq_some_iff.1 h
    obtain ⟨t, ht, hq⟩ := Option.map_eq_some_iff.1 hs
    simp only [Prod.mk.injEq] at hq
    obtain ⟨rfl, rfl⟩ := hq
    obtain ⟨-, p, hp, rfl⟩ := ser_de hd
    unfold String.fromUTF8? at ht
    split_ifs at ht
    simp only [Option.some.injEq] at ht
    subst ht
    exact ⟨rfl, p, hp, rfl⟩

end Composite

section Size

variable [Borsh α] [Borsh β]

/-- A pair is as long as its fields together. -/
theorem length_toVec_prod {x : α × β} {b : Bytes} (h : toVec x = some b) :
    ∃ p q, toVec x.1 = some p ∧ toVec x.2 = some q ∧ b.length = p.length + q.length := by
  obtain ⟨p, hp, h⟩ := Option.bind_eq_some_iff.1 h
  obtain ⟨q, hq, h⟩ := Option.bind_eq_some_iff.1 h
  simp only [Option.pure_def, Option.some.injEq] at h
  exact ⟨p, q, hp, hq, by rw [← h, List.length_append]⟩

theorem length_serAll {size : α → ℕ} : ∀ {xs : List α} {b : Bytes},
    (∀ x ∈ xs, ∀ a, toVec x = some a → a.length = size x) → serAll xs = some b →
      b.length = (xs.map size).sum
  | [], b, _, h => by
    simp only [serAll, Option.some.injEq] at h
    rw [← h]
    rfl
  | x :: xs, b, hsize, h => by
    obtain ⟨p, hp, h⟩ := Option.bind_eq_some_iff.1 h
    obtain ⟨q, hq, h⟩ := Option.bind_eq_some_iff.1 h
    simp only [Option.pure_def, Option.some.injEq] at h
    have ih := length_serAll (fun y hy => hsize y (List.mem_cons_of_mem _ hy)) hq
    rw [← h, List.length_append, List.map_cons, List.sum_cons, ih,
      hsize x List.mem_cons_self p hp]

/-- A list is four bytes longer than its elements together. -/
theorem length_toVec_list {size : α → ℕ} {xs : List α} {b : Bytes}
    (hsize : ∀ x ∈ xs, ∀ a, toVec x = some a → a.length = size x) (h : toVec xs = some b) :
    b.length = 4 + (xs.map size).sum := by
  change (if _ then _ else _) = _ at h
  split_ifs at h
  obtain ⟨c, hc, rfl⟩ := Option.map_eq_some_iff.1 h
  rw [List.length_append, length_leBytes, length_serAll hsize hc]

theorem length_toVec_bytes {bs b : Bytes} (h : toVec bs = some b) : b.length = 4 + bs.length := by
  have hsize : ∀ x ∈ bs, ∀ a, toVec x = some a → a.length = 1 := by
    intro x _ a ha
    have ha : leBytes 1 x.toNat = a := Option.some.inj ha
    rw [← ha, length_leBytes]
  rw [length_toVec_list hsize h]
  simp

theorem serAll_isSome : ∀ {xs : List α}, (∀ x ∈ xs, (toVec x).isSome) → (serAll xs).isSome
  | [], _ => rfl
  | x :: xs, h => by
    obtain ⟨p, hp⟩ := Option.isSome_iff_exists.1 (h x List.mem_cons_self)
    obtain ⟨q, hq⟩ := Option.isSome_iff_exists.1
      (serAll_isSome fun y hy => h y (List.mem_cons_of_mem _ hy))
    have hp : ser x = some p := hp
    simp [serAll, hp, hq]

/-- Writing a list fails at an element or because it is too long. -/
theorem toVec_list_isSome {xs : List α} (hlen : xs.length < 256 ^ 4)
    (h : ∀ x ∈ xs, (toVec x).isSome) : (toVec xs).isSome := by
  obtain ⟨b, hb⟩ := Option.isSome_iff_exists.1 (serAll_isSome h)
  change (if _ then _ else _ : Option Bytes).isSome
  rw [if_pos hlen, hb]
  rfl

theorem toVec_bytes_isSome {bs : Bytes} (h : bs.length < 256 ^ 4) : (toVec bs).isSome :=
  toVec_list_isSome h fun _ _ => rfl

/-- A pair is its fields one after the other. -/
theorem toVec_pair {x : α} {y : β} {p q : Bytes} (hp : toVec x = some p) (hq : toVec y = some q) :
    toVec (x, y) = some (p ++ q) := by
  have hp : ser x = some p := hp
  have hq : ser y = some q := hq
  change (Option.bind (ser x) fun a => Option.bind (ser y) fun b => some (a ++ b)) = _
  rw [hp, hq]
  rfl

theorem toVec_prod_isSome {x : α × β} (h : (toVec x.1).isSome) (h' : (toVec x.2).isSome) :
    (toVec x).isSome := by
  obtain ⟨p, hp⟩ := Option.isSome_iff_exists.1 h
  obtain ⟨q, hq⟩ := Option.isSome_iff_exists.1 h'
  rw [toVec_pair hp hq]
  rfl

end Size

/-- A type with no skipped field: what was written is read back. -/
class Plain (α : Type u) [Borsh α] : Prop where
  reset_eq (x : α) : reset x = x

section Plain

export Plain (reset_eq)

attribute [simp] reset_eq

instance : Plain UInt8 := ⟨fun _ => rfl⟩

instance : Plain UInt32 := ⟨fun _ => rfl⟩

instance : Plain UInt64 := ⟨fun _ => rfl⟩

instance : Plain Int64 := ⟨fun _ => rfl⟩

instance : Plain Bool := ⟨fun _ => rfl⟩

instance : Plain String := ⟨fun _ => rfl⟩

instance (n : ℕ) : Plain (List.Vector UInt8 n) := ⟨fun _ => rfl⟩

variable [Borsh α] [Borsh β]

instance [Plain α] [Plain β] : Plain (α × β) :=
  ⟨fun x => Prod.ext (reset_eq x.1) (reset_eq x.2)⟩

instance [Plain α] : Plain (List α) :=
  ⟨fun xs => (List.map_congr_left fun x _ => reset_eq x).trans (List.map_id xs)⟩

instance [Plain α] : Plain (Option α) :=
  ⟨fun x => by rcases x with _ | x <;> simp [reset]⟩

theorem fromSlice_toVec [Plain α] {x : α} {b : Bytes} (h : toVec x = some b) :
    fromSlice α b = some x := by
  rw [fromSlice_of_ser h, reset_eq]

omit [Borsh α] in
theorem payload_toVec [Plain β] {f : β → α} {x : β} {p : Bytes} (r : Bytes)
    (h : ser x = some p) : payload f (p ++ r) = some (f x, r) := by
  rw [payload_ser r h, reset_eq]

/-- A type of which only the values with `p` are read. -/
instance [Plain α] (p : α → Prop) [DecidablePred p] : Borsh {x : α // p x} where
  ser x := ser x.1
  de b := (de b).bind fun (x, r) => if h : p x then some (⟨x, h⟩, r) else none
  reset := id
  de_ser {x b} r h := by
    obtain ⟨x, hx⟩ := x
    rw [de_ser r h, reset_eq]
    exact dif_pos hx
  ser_de {b r x} h := by
    obtain ⟨⟨y, q⟩, hd, h⟩ := Option.bind_eq_some_iff.1 h
    dsimp only at h
    split_ifs at h with hy
    simp only [Option.some.injEq, Prod.mk.injEq] at h
    obtain ⟨rfl, rfl⟩ := h
    exact ⟨rfl, (ser_de hd).2⟩

instance [Plain α] (p : α → Prop) [DecidablePred p] : Plain {x : α // p x} := ⟨fun _ => rfl⟩

end Plain

end Borsh
