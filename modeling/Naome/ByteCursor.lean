import Naome.MachineIntegers
import Naome.Outcome

/-!
# Byte cursors and big-endian integers

Readers over the bytes that are left. Each reader has one specification: it succeeds
exactly when the bytes start with the encoding of its result, and leaves the rest.
-/
namespace Naome.ByteCursor
open Outcome

variable {ε : Type*} {α : Type}

/-- The low `k` bytes of a number, most significant first. -/
def bigEndian : ℕ → ℕ → List UInt8
  | 0, _ => []
  | k + 1, n => bigEndian k (n / 256) ++ [UInt8.ofNat n]

attribute [local simp] bigEndian

/-- The number written by a byte string, most significant byte first. -/
def ofBigEndian (bytes : List UInt8) : ℕ := bytes.foldl (fun n b => n * 256 + b.toNat) 0

@[simp] theorem length_bigEndian (k n : ℕ) : (bigEndian k n).length = k := by
  induction k generalizing n with
  | zero => rfl
  | succ k ih => simp [bigEndian, ih]

theorem ofBigEndian_append (bytes : List UInt8) (b : UInt8) :
    ofBigEndian (bytes ++ [b]) = ofBigEndian bytes * 256 + b.toNat := by
  simp [ofBigEndian]

theorem ofBigEndian_bigEndian (k n : ℕ) : ofBigEndian (bigEndian k n) = n % 256 ^ k := by
  induction k generalizing n with
  | zero => simp [bigEndian, ofBigEndian, Nat.mod_one]
  | succ k ih =>
    rw [bigEndian, ofBigEndian_append, ih, UInt8.toNat_ofNat', pow_succ' 256 k, Nat.mod_mul]
    omega

theorem ofBigEndian_lt (bytes : List UInt8) : ofBigEndian bytes < 256 ^ bytes.length := by
  induction bytes using List.reverseRecOn with
  | nil => simp [ofBigEndian]
  | append_singleton bytes b ih =>
    have := b.toNat_lt
    rw [ofBigEndian_append, List.length_append, List.length_singleton, pow_succ]
    omega

theorem bigEndian_ofBigEndian (bytes : List UInt8) :
    bigEndian bytes.length (ofBigEndian bytes) = bytes := by
  induction bytes using List.reverseRecOn with
  | nil => rfl
  | append_singleton bytes b ih =>
    have hb := b.toNat_lt
    rw [ofBigEndian_append, List.length_append, List.length_singleton, bigEndian]
    have hdiv : (ofBigEndian bytes * 256 + b.toNat) / 256 = ofBigEndian bytes := by omega
    rw [hdiv, ih]
    congr 2
    apply UInt8.toNat_inj.mp
    rw [UInt8.toNat_ofNat']
    omega

def readU8 (e : ε) : List UInt8 → Except ε (UInt8 × List UInt8)
  | [] => .error e
  | b :: rest => .ok (b, rest)

/-- Splits off `length` bytes. -/
def take (e : ε) (length : ℕ) (bytes : List UInt8) : Except ε (List UInt8 × List UInt8) :=
  if length ≤ bytes.length then .ok (bytes.take length, bytes.drop length) else .error e

/-- Reads a `k`-byte big-endian integer. -/
def readBigEndian (e : ε) (k : ℕ) (bytes : List UInt8) : Except ε (ℕ × List UInt8) := do
  let (value, rest) ← take e k bytes
  return (ofBigEndian value, rest)

def u32Bytes (n : ℕ) : List UInt8 := bigEndian 4 n

def readU32 (e : ε) (bytes : List UInt8) : Except ε (ℕ × List UInt8) := readBigEndian e 4 bytes

@[simp] theorem length_u32Bytes (n : ℕ) : (u32Bytes n).length = 4 := length_bigEndian 4 n

theorem readU8_eq_ok {e : ε} {bytes rest : List UInt8} {b : UInt8} :
    readU8 e bytes = .ok (b, rest) ↔ bytes = b :: rest := by
  cases bytes <;> simp [readU8]

theorem take_eq_ok {e : ε} {k : ℕ} {bytes value rest : List UInt8} :
    take e k bytes = .ok (value, rest) ↔ value.length = k ∧ bytes = value ++ rest := by
  unfold take
  split_ifs with h
  · simp only [Except.ok.injEq, Prod.mk.injEq]
    constructor
    · rintro ⟨rfl, rfl⟩
      simp [h]
    · rintro ⟨rfl, rfl⟩
      simp
  · simp only [false_iff, not_and]
    rintro rfl rfl
    simp at h

theorem readBigEndian_eq_ok {e : ε} {k n : ℕ} {bytes rest : List UInt8} :
    readBigEndian e k bytes = .ok (n, rest) ↔
      n < 256 ^ k ∧ bytes = bigEndian k n ++ rest := by
  unfold readBigEndian
  constructor
  · intro h
    obtain ⟨⟨value, tail⟩, ht, hr⟩ := bind_eq_ok.1 h
    obtain ⟨rfl, rfl⟩ := take_eq_ok.1 ht
    cases hr
    exact ⟨ofBigEndian_lt value, by rw [bigEndian_ofBigEndian]⟩
  · rintro ⟨hn, rfl⟩
    refine bind_eq_ok.2 ⟨(bigEndian k n, rest), take_eq_ok.2 ⟨length_bigEndian k n, rfl⟩, ?_⟩
    simp only [ofBigEndian_bigEndian, Nat.mod_eq_of_lt hn]
    rfl

theorem readU32_eq_ok {e : ε} {n : ℕ} {bytes rest : List UInt8} :
    readU32 e bytes = .ok (n, rest) ↔ n < 2 ^ 32 ∧ bytes = u32Bytes n ++ rest :=
  readBigEndian_eq_ok

/-- Reads `count` values one after another. -/
def readMany (read : List UInt8 → Except ε (α × List UInt8)) :
    ℕ → List UInt8 → Except ε (List α × List UInt8)
  | 0, bytes => .ok ([], bytes)
  | count + 1, bytes => do
    let (value, bytes) ← read bytes
    let (values, bytes) ← readMany read count bytes
    return (value :: values, bytes)

attribute [local simp] readMany

theorem readMany_eq_ok {read : List UInt8 → Except ε (α × List UInt8)} {write : α → List UInt8}
    {P : α → Prop}
    (hread : ∀ bytes value rest,
      read bytes = .ok (value, rest) ↔ P value ∧ bytes = write value ++ rest)
    {count : ℕ} {bytes rest : List UInt8} {values : List α} :
    readMany read count bytes = .ok (values, rest) ↔
      values.length = count ∧ (∀ v ∈ values, P v) ∧ bytes = values.flatMap write ++ rest := by
  induction count generalizing bytes values with
  | zero =>
    simp only [readMany, Except.ok.injEq, Prod.mk.injEq, List.length_eq_zero_iff]
    constructor
    · rintro ⟨rfl, rfl⟩
      simp
    · rintro ⟨rfl, -, rfl⟩
      simp
  | succ count ih =>
    simp only [readMany]
    constructor
    · intro h
      obtain ⟨⟨value, tail⟩, hv, h⟩ := bind_eq_ok.1 h
      obtain ⟨⟨values', rest'⟩, hvs, h⟩ := bind_eq_ok.1 h
      cases h
      obtain ⟨hp, rfl⟩ := (hread _ _ _).mp hv
      obtain ⟨rfl, hps, rfl⟩ := ih.mp hvs
      exact ⟨rfl, List.forall_mem_cons.mpr ⟨hp, hps⟩, by simp⟩
    · rintro ⟨hl, hp, rfl⟩
      obtain ⟨value, values, rfl⟩ := List.exists_cons_of_length_eq_add_one hl
      obtain ⟨hv, hvs⟩ := List.forall_mem_cons.mp hp
      refine bind_eq_ok.2 ⟨(value, values.flatMap write ++ rest), ?_, ?_⟩
      · exact (hread _ _ _).mpr ⟨hv, by simp⟩
      · refine bind_eq_ok.2 ⟨(values, rest), ?_, rfl⟩
        exact ih.mpr ⟨by simpa using hl, hvs, rfl⟩

end Naome.ByteCursor
