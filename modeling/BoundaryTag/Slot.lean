import BoundaryTag.Digit
import BoundaryTag.Limits

/-!
# Slots

An arena is an array of 16-byte slots. Every slot can be read in two ways: as
a tag, with a link to another chunk, a unit count and a status word, or as 16
bytes of somebody's data. Both readings are of the same memory, so a slot
keeps the three words and spells its bytes from them, least significant byte
first.

Results:

* `Status.ofWord?_word` and `Status.word_of_ofWord?` — a status word is
  known exactly when it is the word of a status.
* `Link.decode_encode` — a link reads back, for every index below the
  word that stands for "no chunk".
* `Slot.byte_setByte` — writing one byte of a slot is seen at that byte
  and nowhere else.
-/

namespace BoundaryTag

/-- Bytes in a slot; also the unit in which chunk sizes are counted. -/
def unitBytes : Nat := 16

/-- The largest arena, in units: no unit count outgrows its 32-bit field. -/
def maxUnits : Nat := 0xFFFFFFFF

/-! ## Status words -/

/-- What a chunk header says about its chunk. -/
inductive Status where
  | free
  | inUse
deriving DecidableEq, Repr

namespace Status

/-- The word a header stores for a status. -/
def word : Status → UInt32
  | free => 0x4652
  | inUse => 0x5553

/-- The status a word stands for; most words stand for none. -/
def ofWord? (w : UInt32) : Option Status :=
  if w = free.word then some free
  else if w = inUse.word then some inUse
  else none

@[simp] theorem ofWord?_word (s : Status) : ofWord? s.word = some s := by
  cases s <;> decide

theorem word_of_ofWord? {w : UInt32} {s : Status} (h : ofWord? w = some s) : s.word = w := by
  unfold ofWord? at h
  split at h
  · cases h; simp_all
  · split at h
    · cases h; simp_all
    · cases h

theorem ofWord?_eq_some_iff {w : UInt32} {s : Status} : ofWord? w = some s ↔ w = s.word :=
  ⟨fun h => (word_of_ofWord? h).symm, fun h => h ▸ ofWord?_word s⟩

end Status

/-! ## Links -/

namespace Link

/-- The link word that names no chunk. -/
def none : UInt64 := 0xFFFFFFFFFFFFFFFF

/-- The word for a link to the chunk at an index, or to nothing. -/
def encode : Option Nat → UInt64
  | .some c => UInt64.ofNat c
  | .none => Link.none

/-- The chunk a link word names. -/
def decode (w : UInt64) : Option Nat :=
  if w = Link.none then .none else .some w.toNat

@[simp] theorem decode_none : decode Link.none = .none := by simp [decode]

@[simp] theorem encode_none : encode .none = Link.none := rfl

theorem decode_encode (l : Option Nat) (h : ∀ c ∈ l, c < Word.top) : decode (encode l) = l := by
  cases l with
  | none => simp
  | some c =>
    have hc : c < Word.top := h c rfl
    unfold Word.top at hc
    have hn : (UInt64.ofNat c).toNat = c := by
      rw [UInt64.toNat_ofNat']; exact Nat.mod_eq_of_lt (by omega)
    have hne : UInt64.ofNat c ≠ Link.none := by
      intro he
      have := congrArg UInt64.toNat he
      rw [hn] at this
      simp only [Link.none, UInt64.reduceToNat] at this
      omega
    simp [encode, decode, hne, hn]

end Link

/-! ## Slots -/

/-- One slot of the arena, read as a tag. -/
structure Slot where
  /-- In a header, the next chunk of the free list; in a footer, the previous one. -/
  link : UInt64
  /-- Data units of the chunk. -/
  units : UInt32
  /-- Status word of the chunk; meaningful in headers only. -/
  status : UInt32
deriving DecidableEq, Repr

namespace Slot

/-- Fresh memory: sixteen zero bytes. -/
def zero : Slot := ⟨0, 0, 0⟩

/-- The chunk named by the link. -/
def target (s : Slot) : Option Nat := Link.decode s.link

/-- The slot with its link set. -/
def withTarget (s : Slot) (l : Option Nat) : Slot := { s with link := Link.encode l }

/-- The status the status word stands for. -/
def status? (s : Slot) : Option Status := Status.ofWord? s.status

/-- Byte `k` of the slot: the link fills bytes 0 to 7, the unit count 8 to 11, the status word 12
to 15. -/
def byte (s : Slot) (k : Nat) : UInt8 :=
  if k < 8 then UInt8.ofNat (digit s.link.toNat k)
  else if k < 12 then UInt8.ofNat (digit s.units.toNat (k - 8))
  else UInt8.ofNat (digit s.status.toNat (k - 12))

/-- The slot with byte `k` replaced. -/
def setByte (s : Slot) (k : Nat) (b : UInt8) : Slot :=
  if k < 8 then { s with link := UInt64.ofNat (setDigit s.link.toNat k b.toNat) }
  else if k < 12 then { s with units := UInt32.ofNat (setDigit s.units.toNat (k - 8) b.toNat) }
  else { s with status := UInt32.ofNat (setDigit s.status.toNat (k - 12) b.toNat) }

theorem toNat_ofNat_setDigit_link (w : UInt64) {k : Nat} (hk : k < 8) (b : UInt8) :
    (UInt64.ofNat (setDigit w.toNat k b.toNat)).toNat = setDigit w.toNat k b.toNat := by
  rw [UInt64.toNat_ofNat']
  exact Nat.mod_eq_of_lt (setDigit_lt (m := 8) w.toNat_lt hk b.toNat_lt)

theorem toNat_ofNat_setDigit_half (w : UInt32) {k : Nat} (hk : k < 4) (b : UInt8) :
    (UInt32.ofNat (setDigit w.toNat k b.toNat)).toNat = setDigit w.toNat k b.toNat := by
  rw [UInt32.toNat_ofNat']
  exact Nat.mod_eq_of_lt (setDigit_lt (m := 4) w.toNat_lt hk b.toNat_lt)

theorem byte_setByte (s : Slot) {k j : Nat} (hk : k < 16) (hj : j < 16) (b : UInt8) :
    (s.setByte k b).byte j = if j = k then b else s.byte j := by
  have hb : b.toNat < 256 := b.toNat_lt
  have hself : ∀ n i, UInt8.ofNat (digit (setDigit n i b.toNat) i) = b := by
    intro n i; rw [digit_setDigit_self n i hb, UInt8.ofNat_toNat]
  unfold setByte
  split
  · rename_i h8
    unfold byte
    by_cases hj8 : j < 8
    · simp only [hj8, if_true]
      rw [toNat_ofNat_setDigit_link _ h8]
      split
      · subst_vars; exact hself _ _
      · rename_i hne; rw [digit_setDigit_ne _ hb hne]
    · have : j ≠ k := by omega
      simp [hj8, this]
  · split
    · rename_i h8 h12
      unfold byte
      by_cases hj8 : j < 8
      · have : j ≠ k := by omega
        simp [hj8, this]
      · by_cases hj12 : j < 12
        · simp only [hj8, hj12, if_true, if_false]
          rw [toNat_ofNat_setDigit_half _ (by omega)]
          split
          · subst_vars; exact hself _ _
          · rename_i hne; rw [digit_setDigit_ne _ hb (by omega)]
        · have : j ≠ k := by omega
          simp [hj8, hj12, this]
    · rename_i h8 h12
      unfold byte
      by_cases hj8 : j < 8
      · have : j ≠ k := by omega
        simp [hj8, this]
      · by_cases hj12 : j < 12
        · have : j ≠ k := by omega
          simp [hj8, hj12, this]
        · simp only [hj8, hj12, if_false]
          rw [toNat_ofNat_setDigit_half _ (by omega)]
          split
          · subst_vars; exact hself _ _
          · rename_i hne; rw [digit_setDigit_ne _ hb (by omega)]

end Slot

end BoundaryTag
