import Mathlib.Tactic

/-! Little-endian numbers, and records that stand one after another in a file. -/

namespace Bytes

/-! ## Little-endian numbers -/

/-- The `k` low bytes of a number, the lowest one first. -/
def toLE : ℕ → ℕ → List UInt8
  | 0, _ => []
  | k + 1, n => UInt8.ofNat n :: toLE k (n / 256)

def ofLE : List UInt8 → ℕ
  | [] => 0
  | b :: l => b.toNat + 256 * ofLE l

@[simp] theorem length_toLE (k n : ℕ) : (toLE k n).length = k := by
  induction k generalizing n with
  | zero => rfl
  | succ k ih => rw [toLE, List.length_cons, ih]

theorem ofLE_toLE (k n : ℕ) : ofLE (toLE k n) = n % 256 ^ k := by
  induction k generalizing n with
  | zero => rw [pow_zero, Nat.mod_one]; rfl
  | succ k ih =>
    rw [toLE, ofLE, ih, pow_succ', Nat.mod_mul, UInt8.toNat_ofNat']

theorem ofLE_toLE_of_lt {k n : ℕ} (h : n < 256 ^ k) : ofLE (toLE k n) = n := by
  rw [ofLE_toLE, Nat.mod_eq_of_lt h]

theorem toLE_ofLE (l : List UInt8) : toLE l.length (ofLE l) = l := by
  induction l with
  | nil => rfl
  | cons b l ih =>
    have hb := b.toNat_lt
    have hdiv : (b.toNat + 256 * ofLE l) / 256 = ofLE l := by omega
    have hmod : UInt8.ofNat (b.toNat + 256 * ofLE l) = b := by
      rw [← UInt8.toNat_inj, UInt8.toNat_ofNat']
      omega
    rw [List.length_cons, ofLE, toLE, hdiv, hmod, ih]

theorem ofLE_lt (l : List UInt8) : ofLE l < 256 ^ l.length := by
  induction l with
  | nil => exact Nat.one_pos
  | cons b l ih =>
    have hb := b.toNat_lt
    rw [ofLE, List.length_cons, pow_succ']
    omega

/-! ## Reading -/

/-- A reader takes what it wants from the front of the bytes; it fails when they are too short. -/
abbrev Reader (α : Type) := StateT (List UInt8) Option α

/-- The next `n` bytes. -/
def bytes (n : ℕ) : Reader (List UInt8) := fun l => if n ≤ l.length then some (l.take n, l.drop n) else none

/-- A number of `k` bytes. -/
def number (k : ℕ) : Reader ℕ := ofLE <$> bytes k

/-- The reader takes this prefix for this value, whatever follows it. -/
def Reads {α : Type} (r : Reader α) (l : List UInt8) (a : α) : Prop := ∀ rest, r (l ++ rest) = some (a, rest)

section Reads
variable {α β : Type}

theorem reads_pure (a : α) : Reads (pure a) [] a := fun _ => rfl

theorem Reads.bind {r : Reader α} {f : α → Reader β} {l l' : List UInt8} {a : α} {b : β} (h : Reads r l a)
    (h' : Reads (f a) l' b) : Reads (r >>= f) (l ++ l') b := fun rest => by
  rw [List.append_assoc]
  change (r (l ++ (l' ++ rest))).bind _ = _
  rw [h]
  exact h' rest

theorem reads_bytes {n : ℕ} {l : List UInt8} (h : l.length = n) : Reads (bytes n) l l := fun rest => by
  subst h
  simp [bytes]

theorem Reads.map {r : Reader α} {l : List UInt8} {a : α} (h : Reads r l a) (f : α → β) : Reads (f <$> r) l (f a) :=
  fun rest => by
  change (r (l ++ rest)).bind _ = _
  rw [h]
  rfl

theorem Reads.bind_pure {r : Reader α} {l : List UInt8} {a : α} (h : Reads r l a) {f : α → β} {b : β} (hb : f a = b) :
    Reads (r >>= fun x => pure (f x)) l b := by
  subst hb
  have hread := h.bind (f := fun x => pure (f x)) (reads_pure (f a))
  rwa [List.append_nil] at hread

theorem reads_number {k n : ℕ} (h : n < 256 ^ k) : Reads (number k) (toLE k n) n := by
  have hread := (reads_bytes (length_toLE k n)).map ofLE
  rwa [ofLE_toLE_of_lt h] at hread

theorem reads_number4 {n : ℕ} (h : n < 2 ^ 32) : Reads (number 4) (toLE 4 n) n := by
  apply reads_number
  norm_num
  exact h

theorem reads_number8 {n : ℕ} (h : n < 2 ^ 64) : Reads (number 8) (toLE 8 n) n := by
  apply reads_number
  norm_num
  exact h

end Reads

/-! ## Files of records -/

def readAll {α : Type} (r : Reader α) : ℕ → List UInt8 → List α
  | 0, _ => []
  | fuel + 1, l =>
    match r l with
    | none => []
    | some (a, rest) => a :: readAll r fuel rest

theorem readAll_flatMap {α β : Type} {r : Reader α} (write : β → List UInt8) (value : β → α) (hend : r [] = none)
    {fuel : ℕ} {l : List β} (hr : ∀ b ∈ l, Reads r (write b) (value b)) (hf : l.length ≤ fuel) :
    readAll r fuel (l.flatMap write) = l.map value := by
  induction l generalizing fuel with
  | nil => cases fuel <;> simp [readAll, hend]
  | cons b l ih =>
    rw [List.length_cons] at hf
    obtain ⟨fuel, rfl⟩ : ∃ f, fuel = f + 1 := Nat.exists_eq_succ_of_ne_zero (by omega)
    rw [List.flatMap_cons, readAll, hr b List.mem_cons_self]
    simp only [List.map_cons]
    rw [ih (fun b hb => hr b (List.mem_cons_of_mem _ hb)) (by omega)]

theorem length_le_flatMap {β : Type} {write : β → List UInt8} (hne : ∀ b, write b ≠ []) (l : List β) :
    l.length ≤ (l.flatMap write).length := by
  induction l with
  | nil => exact le_rfl
  | cons b l ih =>
    have hpos := List.length_pos_of_ne_nil (hne b)
    rw [List.flatMap_cons, List.length_append, List.length_cons]
    omega

end Bytes
