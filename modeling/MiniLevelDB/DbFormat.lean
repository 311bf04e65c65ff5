import MiniLevelDB.Coding

/-! # Internal keys

`db/dbformat.h`: the key an entry is stored under is the user key followed by eight bytes of tag,
the sequence number and the type of the entry.  `internalKeyLess` is `InternalKeyComparator`: user
keys ascending, tags of one user key descending. -/

namespace MiniLevelDB

inductive ValueType where
  | kTypeDeletion
  | kTypeValue
deriving DecidableEq, Repr

/-- The number of a value type. -/
def ValueType.toNat : ValueType → ℕ
  | .kTypeDeletion => 0
  | .kTypeValue => 1

theorem ValueType.toNat_lt (t : ValueType) : t.toNat < 256 := by
  cases t <;> decide

def kMaxSequenceNumber : ℕ := (1 <<< 56) - 1

/-- The result of a lookup in one layer; `kValue` carries the value. -/
inductive LookupState where
  | kNotFound
  | kValue (value : Bytes)
  | kDeleted
deriving DecidableEq, Repr

/-- `PackSequenceAndType`. -/
def packSequenceAndType (seq : ℕ) (t : ValueType) : ℕ := (seq <<< 8) % 2 ^ 64 ||| t.toNat

def extractUserKey (internal_key : Bytes) : Bytes := internal_key.take (internal_key.length - 8)

def extractTag (internal_key : Bytes) : ℕ :=
  decodeFixed64 (internal_key.drop (internal_key.length - 8))

/-- `AppendInternalKey` on an empty string. -/
def internalKey (user_key : Bytes) (seq : ℕ) (t : ValueType) : Bytes :=
  user_key ++ encodeFixed64 (packSequenceAndType seq t)

/-- `InternalKeyComparator`. -/
def internalKeyLess (a b : Bytes) : Bool :=
  let r := Slice.compare (extractUserKey a) (extractUserKey b)
  if r ≠ 0 then decide (r < 0) else decide (extractTag a > extractTag b)

theorem packSequenceAndType_eq (seq : ℕ) (t : ValueType) :
    packSequenceAndType seq t = seq % 2 ^ 56 * 256 + t.toNat := by
  have h : (seq <<< 8) % 2 ^ 64 = (seq % 2 ^ 56) <<< 8 := by
    rw [Nat.shiftLeft_eq, Nat.shiftLeft_eq]
    omega
  rw [packSequenceAndType, h, Nat.or_comm, or_shiftLeft_eq_add t.toNat_lt]
  omega

theorem packSequenceAndType_lt (seq : ℕ) (t : ValueType) : packSequenceAndType seq t < 2 ^ 64 := by
  have := t.toNat_lt
  rw [packSequenceAndType_eq]
  omega

theorem packSequenceAndType_mod (seq : ℕ) (t : ValueType) :
    packSequenceAndType seq t % 256 = t.toNat := by
  have := t.toNat_lt
  rw [packSequenceAndType_eq]
  omega

@[simp] theorem internalKey_length (user_key : Bytes) (seq : ℕ) (t : ValueType) :
    (internalKey user_key seq t).length = user_key.length + 8 := by
  simp [internalKey]

@[simp] theorem extractUserKey_internalKey (user_key : Bytes) (seq : ℕ) (t : ValueType) :
    extractUserKey (internalKey user_key seq t) = user_key := by
  simp [extractUserKey, internalKey]

@[simp] theorem extractTag_internalKey (user_key : Bytes) (seq : ℕ) (t : ValueType) :
    extractTag (internalKey user_key seq t) = packSequenceAndType seq t := by
  have h := decodeFixed64_encodeFixed64 (packSequenceAndType_lt seq t) []
  rw [List.append_nil] at h
  simp [extractTag, internalKey, h]

theorem internalKeyLess_iff (a b : Bytes) :
    internalKeyLess a b = true ↔ extractUserKey a < extractUserKey b ∨
      extractUserKey a = extractUserKey b ∧ extractTag b < extractTag a := by
  unfold internalKeyLess
  simp only
  by_cases h : Slice.compare (extractUserKey a) (extractUserKey b) = 0
  · have heq := (Slice.compare_eq_zero_iff _ _).mp h
    rw [if_neg (not_not.mpr h), decide_eq_true_iff, heq]
    exact ⟨fun hlt => Or.inr ⟨rfl, hlt⟩, fun h => h.elim (absurd · (lt_irrefl _)) And.right⟩
  · have hne : ¬ extractUserKey a = extractUserKey b := fun heq =>
      h ((Slice.compare_eq_zero_iff _ _).mpr heq)
    rw [if_pos h, decide_eq_true_iff, Slice.compare_neg_iff]
    exact ⟨Or.inl, fun h => h.elim id (fun h => absurd h.1 hne)⟩

/-- A stored key is its user key followed by its tag. -/
theorem internal_key_eq {k : Bytes} (h : 8 ≤ k.length) :
    k = extractUserKey k ++ k.drop (k.length - 8) ∧ (k.drop (k.length - 8)).length = 8 := by
  refine ⟨(List.take_append_drop _ k).symm, ?_⟩
  rw [List.length_drop]
  omega

end MiniLevelDB
