import Mathlib.Data.List.GetD
import ZlomekFS.Lib.Bytes

/-! Packets of aligned values. A layout says which bytes a value takes from a position on; the padding in
front of an aligned value depends on the position. -/

namespace Packets
open Bytes

/-! ## Alignment -/

/-- The first multiple of `s` that is not below `n`. -/
def align (s n : ℕ) : ℕ := (n + (s - 1)) / s * s

theorem le_align {s : ℕ} (hs : 0 < s) (n : ℕ) : n ≤ align s n := by
  have hdiv := Nat.div_add_mod (n + (s - 1)) s
  have hmod := Nat.mod_lt (n + (s - 1)) hs
  rw [mul_comm] at hdiv
  unfold align
  omega

theorem align_le (s n : ℕ) : align s n ≤ n + (s - 1) := Nat.div_mul_le_self _ _

theorem align_of_dvd {s n : ℕ} (hs : 0 < s) (h : s ∣ n) : align s n = n := by
  obtain ⟨k, rfl⟩ := h
  have hdiv : (s * k + (s - 1)) / s = k := by
    rw [Nat.mul_add_div hs, Nat.div_eq_of_lt (by omega), Nat.add_zero]
  rw [align, hdiv, Nat.mul_comm]

/-! ## Buffers -/

section Buffers
variable (buf : ℕ → UInt8)

def put (pos : ℕ) (l : List UInt8) : ℕ → UInt8 := fun i =>
  if pos ≤ i ∧ i < pos + l.length then l.getD (i - pos) 0 else buf i

def get (pos n : ℕ) : List UInt8 := (List.range n).map fun i => buf (pos + i)

def Lies (pos : ℕ) (l : List UInt8) : Prop := get buf pos l.length = l

@[simp] theorem length_get (pos n : ℕ) : (get buf pos n).length = n := by simp [get]

theorem get_add (pos n m : ℕ) : get buf pos (n + m) = get buf pos n ++ get buf (pos + n) m := by
  unfold get
  rw [List.range_add, List.map_append, List.map_map]
  simp [Function.comp_def, Nat.add_assoc]

theorem lies_append {pos : ℕ} {l l' : List UInt8} :
    Lies buf pos (l ++ l') ↔ Lies buf pos l ∧ Lies buf (pos + l.length) l' := by
  unfold Lies
  rw [List.length_append, get_add]
  refine ⟨fun h => ?_, fun ⟨h, h'⟩ => by rw [h, h']⟩
  exact List.append_inj h (length_get ..)

variable {buf}

theorem put_of_lt {pos i : ℕ} (l : List UInt8) (h : i < pos) : put buf pos l i = buf i :=
  if_neg fun hi => absurd hi.1 (by omega)

theorem lies_put (buf : ℕ → UInt8) (pos : ℕ) (l : List UInt8) : Lies (put buf pos l) pos l := by
  refine List.ext_getElem (length_get ..) fun i hi _ => ?_
  rw [length_get] at hi
  simp [get, put, hi]

theorem Lies.congr {buf' : ℕ → UInt8} {pos : ℕ} {l : List UInt8} (h : Lies buf pos l)
    (heq : ∀ i, pos ≤ i → i < pos + l.length → buf' i = buf i) : Lies buf' pos l := by
  have hget : get buf' pos l.length = get buf pos l.length := by
    refine List.map_congr_left fun i hi => ?_
    rw [List.mem_range] at hi
    exact heq _ (by omega) (by omega)
  exact hget.trans h

theorem Lies.put_append {pos : ℕ} {l : List UInt8} (h : Lies buf pos l) (l' : List UInt8) :
    Lies (put buf (pos + l.length) l') pos (l ++ l') :=
  (lies_append _).mpr ⟨h.congr fun _ _ hi => put_of_lt l' hi, lies_put ..⟩

theorem put_put (buf : ℕ → UInt8) (pos : ℕ) (l l' : List UInt8) :
    put (put buf pos l) (pos + l.length) l' = put buf pos (l ++ l') := by
  funext i
  unfold put
  rw [List.length_append]
  by_cases hl : i < pos + l.length
  · rw [if_neg (by omega)]
    by_cases hp : pos ≤ i
    · rw [if_pos ⟨hp, hl⟩, if_pos ⟨hp, by omega⟩, List.getD_append _ _ _ _ (by omega)]
    · rw [if_neg (by omega), if_neg (by omega)]
  · rw [if_neg (by omega : ¬ (pos ≤ i ∧ i < pos + l.length))]
    by_cases hl' : i < pos + l.length + l'.length
    · rw [if_pos ⟨by omega, hl'⟩, if_pos ⟨by omega, by omega⟩, List.getD_append_right _ _ _ _ (by omega)]
      congr 1
      omega
    · rw [if_neg (by omega), if_neg (by omega)]

theorem put_of_lies {pos : ℕ} {l : List UInt8} (h : Lies buf pos l) : put buf pos l = buf := by
  funext i
  unfold put
  split_ifs with hi
  · obtain ⟨j, rfl⟩ := Nat.exists_eq_add_of_le hi.1
    have hj : j < l.length := by omega
    have hget : (get buf pos l.length).getD j 0 = buf (pos + j) := by simp [get, hj]
    rw [Nat.add_sub_cancel_left, ← hget, show get buf pos l.length = l from h]
  · rfl

end Buffers

/-! ## Layouts -/

abbrev Layout := ℕ → List UInt8

namespace Layout

def stop (w : Layout) (pos : ℕ) : ℕ := pos + (w pos).length

def seq (w w' : Layout) : Layout := fun pos => w pos ++ w' (w.stop pos)

def empty : Layout := fun _ => []

def raw (l : List UInt8) : Layout := fun _ => l

/-- A little-endian number, aligned to its size; the padding is zero. -/
def scalar (size n : ℕ) : Layout := fun pos => List.replicate (align size pos - pos) 0 ++ toLE size n

theorem le_stop (w : Layout) (pos : ℕ) : pos ≤ w.stop pos := Nat.le_add_right _ _

theorem stop_seq (w w' : Layout) (pos : ℕ) : (w.seq w').stop pos = w'.stop (w.stop pos) := by
  unfold seq stop
  rw [List.length_append, Nat.add_assoc]

theorem stop_raw (l : List UInt8) (pos : ℕ) : (raw l).stop pos = pos + l.length := rfl

theorem stop_scalar {size : ℕ} (hs : 0 < size) (n pos : ℕ) : (scalar size n).stop pos = align size pos + size := by
  have hle := le_align hs pos
  simp only [stop, scalar, List.length_append, List.length_replicate, length_toLE]
  omega

end Layout

end Packets
