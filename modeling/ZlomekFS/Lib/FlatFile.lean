import Mathlib.Tactic

/-! Flat files: a size and a byte at every offset, where every offset past the end reads as
zero. Reading stops at the end of the file, writing past the end extends it and leaves a hole
of zeros, truncating cuts it off or extends it by zeros. -/

structure FlatFile (α : Type) [Zero α] where
  size : ℕ
  byte : ℕ → α
  beyond : ∀ i, size ≤ i → byte i = 0

namespace FlatFile
variable {α : Type} [Zero α]

theorem ext' {f g : FlatFile α} (hs : f.size = g.size) (hb : ∀ i, f.byte i = g.byte i) : f = g := by
  obtain ⟨fs, fb, fh⟩ := f
  obtain ⟨gs, gb, gh⟩ := g
  obtain rfl : fs = gs := hs
  obtain rfl : fb = gb := funext hb
  rfl

def ofList (l : List α) : FlatFile α where
  size := l.length
  byte i := l.getD i 0
  beyond i hi := by simp [List.getD, hi]

/-- At most `n` bytes from offset `off`. -/
def read (f : FlatFile α) (off n : ℕ) : List α := (List.range (min n (f.size - off))).map (f.byte <| off + ·)

def write (f : FlatFile α) (off : ℕ) (data : List α) : FlatFile α where
  size := if data = [] then f.size else max f.size (off + data.length)
  byte i := if off ≤ i then data.getD (i - off) (f.byte i) else f.byte i
  beyond i hi := by
    split_ifs at hi with hd
    · simp [hd, f.beyond i hi]
    · have hf := f.beyond i (le_of_max_le_left hi)
      have : data.length ≤ i - off := by omega
      simp [List.getD, this, hf]

def truncate (f : FlatFile α) (n : ℕ) : FlatFile α where
  size := n
  byte i := if i < n then f.byte i else 0
  beyond i hi := by simp [hi]

section
variable (f : FlatFile α)

@[simp] theorem length_read (off n : ℕ) : (f.read off n).length = min n (f.size - off) := by simp [read]

theorem getD_read (off n i : ℕ) (d : α) (hi : i < n) (hs : off + i < f.size) :
    (f.read off n).getD i d = f.byte (off + i) := by
  have : i < f.size - off := by omega
  simp [read, List.getD, hi, this]

@[simp] theorem size_truncate (n : ℕ) : (f.truncate n).size = n := rfl

theorem byte_truncate (n i : ℕ) : (f.truncate n).byte i = if i < n then f.byte i else 0 := rfl

@[simp] theorem byte_truncate_of_lt {n i : ℕ} (h : i < n) :
    (f.truncate n).byte i = f.byte i := by simp [byte_truncate, h]

theorem truncate_self : f.truncate f.size = f := by
  refine ext' rfl fun i => ?_
  by_cases h : i < f.size
  · exact f.byte_truncate_of_lt h
  · simp [byte_truncate, h, f.beyond i (by omega)]

@[simp] theorem write_nil (off : ℕ) : f.write off [] = f :=
  ext' (by simp [write]) fun i => by simp [write]

theorem size_write (off : ℕ) {data : List α} (hd : data ≠ []) :
    (f.write off data).size = max f.size (off + data.length) := by simp [write, hd]

theorem size_write_of_le {off : ℕ} {data : List α} (h : off + data.length ≤ f.size) :
    (f.write off data).size = f.size := by
  simp only [write]
  split_ifs
  · rfl
  · exact max_eq_left h

theorem byte_write_of_lt {off i : ℕ} (data : List α) (h : i < off) : (f.write off data).byte i = f.byte i := by
  have : ¬ off ≤ i := by omega
  simp [write, this]

theorem byte_write_of_ge {off i : ℕ} (data : List α) (h : off + data.length ≤ i) :
    (f.write off data).byte i = f.byte i := by
  have : data.length ≤ i - off := by omega
  simp [write, List.getD, this]

theorem byte_write {off i : ℕ} (data : List α) (d : α) (h : off ≤ i)
    (h' : i < off + data.length) : (f.write off data).byte i = data.getD (i - off) d := by
  have : i - off < data.length := by omega
  simp [write, h, List.getD, this]

theorem write_read (off n : ℕ) : f.write off (f.read off n) = f := by
  refine ext' ?_ fun i => ?_
  · by_cases h : f.read off n = []
    · simp [write, h]
    · rw [size_write f off h, length_read]
      have := List.length_pos_of_ne_nil h
      rw [length_read] at this
      omega
  · by_cases hi : off ≤ i ∧ i < off + min n (f.size - off)
    · rw [byte_write f _ 0 hi.1 (by rw [length_read]; exact hi.2), getD_read f off n _ 0 (by omega) (by omega),
        Nat.add_sub_cancel' hi.1]
    · rcases lt_or_ge i off with hlt | hge
      · exact f.byte_write_of_lt _ hlt
      · exact f.byte_write_of_ge _ (by rw [length_read]; omega)

theorem write_append (off : ℕ) (a b : List α) :
    (f.write off a).write (off + a.length) b = f.write off (a ++ b) := by
  rcases eq_or_ne b [] with rfl | hb
  · simp
  have hab : a ++ b ≠ [] := by simp [hb]
  refine ext' ?_ fun i => ?_
  · rw [size_write _ _ hb, size_write _ _ hab, List.length_append]
    rcases eq_or_ne a [] with rfl | ha
    · simp
    · rw [size_write _ _ ha]
      omega
  · have hlen : (a ++ b).length = a.length + b.length := List.length_append
    rcases lt_or_ge i (off + a.length) with hi | hi
    · rw [byte_write_of_lt _ _ hi]
      rcases lt_or_ge i off with hi' | hi'
      · rw [byte_write_of_lt _ _ hi', byte_write_of_lt _ _ hi']
      · rw [byte_write _ _ 0 hi' hi, byte_write _ _ 0 hi' (by omega), List.getD_eq_getElem?_getD,
          List.getD_eq_getElem?_getD, List.getElem?_append_left (by omega)]
    rcases lt_or_ge i (off + a.length + b.length) with hi' | hi'
    · rw [byte_write _ _ 0 hi hi', byte_write _ _ 0 (by omega) (by omega), List.getD_eq_getElem?_getD,
        List.getD_eq_getElem?_getD, List.getElem?_append_right (by omega), Nat.sub_sub]
    · rw [byte_write_of_ge _ _ hi', byte_write_of_ge _ _ hi, byte_write_of_ge _ _ (by omega)]

end

end FlatFile
