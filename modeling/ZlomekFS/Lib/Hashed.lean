import ZlomekFS.Lib.Probing

/-! Tables with open addressing. Every key has its own order of the places; an element is reached in the order
of its key over places that are not empty. -/

namespace Hashed
open Probing Function

inductive Entry (α : Type)
  | empty | deleted | elem (x : α)
  deriving DecidableEq, Repr

variable {κ α : Type}

namespace Entry

def isEmpty : Entry α → Bool
  | empty => true
  | _ => false

def isDeleted : Entry α → Bool
  | deleted => true
  | _ => false

def isElem : Entry α → Bool
  | elem _ => true
  | _ => false

theorem isEmpty_iff {e : Entry α} : e.isEmpty = true ↔ e = empty := by cases e <;> simp [isEmpty]

theorem isDeleted_iff {e : Entry α} : e.isDeleted = true ↔ e = deleted := by cases e <;> simp [isDeleted]

end Entry

variable {t : ℕ → Entry α} {size idx : ℕ}

/-! ## Counters -/

structure Counted (t : ℕ → Entry α) (size nElements nDeleted : ℕ) : Prop where
  elements : nElements = Nat.count (fun i => !(t i).isEmpty) size
  deleted : nDeleted = Nat.count (fun i => (t i).isDeleted) size

section Counters
variable {n d : ℕ}

theorem counted_empty (size : ℕ) : Counted (fun _ => (.empty : Entry α)) size 0 0 := by
  constructor
  · simp [Nat.count_eq_card_filter_range, Entry.isEmpty]
  · simp [Nat.count_eq_card_filter_range, Entry.isDeleted]

variable (h : Counted t size n d)
include h

theorem Counted.live : Nat.count (fun i => (t i).isElem) size + d = n := by
  rw [h.elements, h.deleted]
  clear h
  induction size with
  | zero => rfl
  | succ size ih =>
    rw [Nat.count_succ, Nat.count_succ, Nat.count_succ, ← ih]
    cases t size with
    | empty => rfl
    | deleted => exact (Nat.add_assoc ..).symm
    | elem x => exact Nat.add_right_comm ..

theorem Counted.exists_empty (hroom : n < size) : ∃ i < size, t i = .empty := by
  rw [h.elements] at hroom
  obtain ⟨i, hi, hempty⟩ := exists_not_of_count_lt hroom
  exact ⟨i, hi, Entry.isEmpty_iff.mp (by simpa using hempty)⟩

theorem Counted.deleted_pos (hidx : idx < size) (hdel : t idx = .deleted) : 1 ≤ d := by
  have hcount := count_update (fun e : Entry α => e.isDeleted) t hidx .empty
  rw [← h.deleted, hdel] at hcount
  exact (Nat.le_add_left 1 _).trans hcount.le

theorem Counted.update (hidx : idx < size) (e : Entry α) {n' d' : ℕ}
    (hn : n' + (if !(t idx).isEmpty then 1 else 0) = n + if !e.isEmpty then 1 else 0)
    (hd : d' + (if (t idx).isDeleted then 1 else 0) = d + if e.isDeleted then 1 else 0) :
    Counted (update t idx e) size n' d' := by
  have hcount := count_update (fun e : Entry α => !e.isEmpty) t hidx e
  have hcount' := count_update (fun e : Entry α => e.isDeleted) t hidx e
  rw [← h.elements] at hcount
  rw [← h.deleted] at hcount'
  exact ⟨Nat.add_right_cancel (hn.trans hcount.symm), Nat.add_right_cancel (hd.trans hcount'.symm)⟩

end Counters

/-! ## Orders of the places -/

structure Visits (spot : ℕ → ℕ) (size : ℕ) : Prop where
  lt : ∀ j, spot j < size
  reach : ∀ i < size, ∃ j < size, spot j = i

theorem visits_next {step start : ℕ} (h : start < size) (hstep : step ≤ size) (hco : step.Coprime size) :
    Visits (fun j => (next size step)^[j] start) size where
  lt j := by
    rw [iterate_next h hstep]
    exact Nat.mod_lt _ (by omega)
  reach _ hi := exists_iterate_next h hstep hco hi

def Chain (t : ℕ → Entry α) (spot : ℕ → ℕ) (i : ℕ) : Prop := ∃ d, spot d = i ∧ ∀ j < d, t (spot j) ≠ .empty

theorem Chain.update {spot : ℕ → ℕ} {i : ℕ} (h : Chain t spot i) {e : Entry α} (he : e ≠ .empty) :
    Chain (update t idx e) spot i := by
  obtain ⟨d, hd, hbefore⟩ := h
  refine ⟨d, hd, fun j hj => ?_⟩
  rw [update_apply]
  split_ifs
  · exact he
  · exact hbefore j hj

theorem exists_emptySlot {next : ℕ → ℕ} {start : ℕ} (hv : Visits (next^[·] start) size)
    (hempty : ∃ i < size, t i = .empty) :
    ∃ idx < size, walkBy (fun i => (t i).isEmpty) (fun (_ : Unit) _ => ()) next size start () = some (idx, ()) ∧
      t idx = .empty ∧ Chain t (next^[·] start) idx := by
  obtain ⟨i, hi, hi'⟩ := hempty
  obtain ⟨j, hj, rfl⟩ := hv.reach i hi
  obtain ⟨d, -, hstop, hbefore, hwalk⟩ := exists_walkBy (fun i => (t i).isEmpty) (fun (_ : Unit) _ => ()) hj
    (Entry.isEmpty_iff.mpr hi') ()
  exact ⟨_, hv.lt d, hwalk, Entry.isEmpty_iff.mp hstop, d, rfl, fun j hj he =>
    hbefore j hj (Entry.isEmpty_iff.mpr he)⟩

/-! ## The map that a table stands for -/

def Has (t : ℕ → Entry α) (size : ℕ) (x : α) : Prop := ∃ i < size, t i = .elem x

theorem has_update (hidx : idx < size) (e : Entry α) (y : α) :
    Has (update t idx e) size y ↔ e = .elem y ∨ ∃ i < size, i ≠ idx ∧ t i = .elem y := by
  constructor
  · rintro ⟨i, hi, hy⟩
    rw [update_apply] at hy
    split_ifs at hy with hne
    · exact Or.inl hy
    · exact Or.inr ⟨i, hi, hne, hy⟩
  · rintro (hy | ⟨i, hi, hne, hy⟩)
    · exact ⟨idx, hidx, by rw [update_self, hy]⟩
    · exact ⟨i, hi, by rw [update_of_ne hne, hy]⟩

def Unique (key : α → κ) (size : ℕ) (t : ℕ → Entry α) : Prop :=
  ∀ i < size, ∀ j < size, ∀ x y, t i = .elem x → t j = .elem y → key x = key y → i = j

structure Stores (key : α → κ) (spot : κ → ℕ → ℕ) (size : ℕ) (t : ℕ → Entry α) (m : κ → Option α) : Prop where
  chain : ∀ i < size, ∀ x, t i = .elem x → Chain t (spot (key x)) i
  unique : Unique key size t
  mem : ∀ k x, m k = some x ↔ Has t size x ∧ key x = k

section Maps
variable {key : α → κ} {spot : κ → ℕ → ℕ} {m : κ → Option α}

theorem unique_empty : Unique key size fun _ => .empty := fun _ _ _ _ _ _ hx => by cases hx

theorem stores_empty : Stores key spot size (fun _ => .empty) fun _ => none where
  chain _ _ _ hx := by cases hx
  unique := unique_empty
  mem k x := ⟨fun hx => by simp at hx, fun ⟨⟨_, _, hx⟩, _⟩ => by cases hx⟩

variable (h : Stores key spot size t m)
include h

theorem Stores.of_elem {i : ℕ} (hi : i < size) {x : α} (hx : t i = .elem x) : m (key x) = some x :=
  (h.mem _ _).mpr ⟨⟨i, hi, hx⟩, rfl⟩

section Change
variable [DecidableEq κ] {x : α}

/-- An element is put at a place that its order reaches: in the place of the element with its key, or where no
element is. -/
theorem Stores.put (hidx : idx < size) (hchain : Chain t (spot (key x)) idx)
    (hslot : (∃ y, t idx = .elem y ∧ key y = key x) ∨ (∀ y, t idx ≠ .elem y) ∧ m (key x) = none) :
    Stores key spot size (update t idx (.elem x)) (update m (key x) (some x)) := by
  have hother : ∀ j < size, j ≠ idx → ∀ y, t j = .elem y → key y ≠ key x := by
    intro j hj hne y hy hkey
    rcases hslot with ⟨z, hz, hzx⟩ | ⟨-, hnone⟩
    · exact hne (h.unique j hj idx hidx y z hy hz (hkey.trans hzx.symm))
    · rw [← hkey, h.of_elem hj hy] at hnone
      cases hnone
  refine ⟨fun i hi y hy => ?_, fun i hi j hj y z hy hz hkey => ?_, fun k y => ?_⟩
  · rw [update_apply] at hy
    split_ifs at hy with hi'
    · obtain rfl := Entry.elem.inj hy
      rw [hi']
      exact hchain.update (by simp)
    · exact (h.chain i hi y hy).update (by simp)
  · have := h.unique i hi j hj y z
    grind
  · have := h.mem k y
    rw [has_update hidx, update_apply]
    grind [Has]

theorem Stores.remove (hidx : idx < size) (hx : t idx = .elem x) :
    Stores key spot size (update t idx .deleted) (update m (key x) none) := by
  refine ⟨fun i hi y hy => ?_, fun i hi j hj y z hy hz hkey => ?_, fun k y => ?_⟩
  · rw [update_apply] at hy
    split_ifs at hy with hi'
    exact (h.chain i hi y hy).update (by simp)
  · have := h.unique i hi j hj y z
    grind
  · have := h.mem k y
    have hunique := h.unique
    rw [has_update hidx, update_apply]
    grind [Has, Unique]

end Change

end Maps

/-! ## Finding -/

/-- Whether the search for a key ends at an entry. -/
def stopsAt [DecidableEq κ] (key : α → κ) (k : κ) : Entry α → Bool
  | .empty => true
  | .deleted => false
  | .elem x => key x = k

/-- The first deleted place. -/
def noteDeleted (t : ℕ → Entry α) (noted : Option ℕ) (i : ℕ) : Option ℕ :=
  if (t i).isDeleted then noted.or (some i) else noted

theorem foldl_noteDeleted (l : List ℕ) {noted : Option ℕ} {i : ℕ} (h : l.foldl (noteDeleted t) noted = some i) :
    noted = some i ∨ (i ∈ l ∧ t i = .deleted) := by
  induction l generalizing noted with
  | nil => exact Or.inl h
  | cons j l ih =>
    rcases ih h with hnoted | ⟨hmem, hdel⟩
    · unfold noteDeleted at hnoted
      split_ifs at hnoted with hdel
      · cases noted with
        | none =>
          obtain rfl : j = i := by simpa using hnoted
          exact Or.inr ⟨List.mem_cons_self, Entry.isDeleted_iff.mp hdel⟩
        | some a => exact Or.inl hnoted
      · exact Or.inl hnoted
    · exact Or.inr ⟨List.mem_cons_of_mem _ hmem, hdel⟩

/-- What the search for a key finds. -/
structure Found (key : α → κ) (spot : ℕ → ℕ) (size : ℕ) (t : ℕ → Entry α) (k : κ) (idx : ℕ) (firstDeleted : Option ℕ) :
    Prop where
  lt : idx < size
  path : ∃ d, spot d = idx ∧ ∀ j < d, t (spot j) ≠ .empty ∧ ∀ x, t (spot j) = .elem x → key x ≠ k
  stop : t idx = .empty ∨ ∃ x, t idx = .elem x ∧ key x = k
  deleted : ∀ i, firstDeleted = some i → i < size ∧ t i = .deleted ∧ Chain t spot i

section Finding
variable {key : α → κ} {spot : ℕ → ℕ} {k : κ} {firstDeleted : Option ℕ}

theorem exists_found [DecidableEq κ] (key : α → κ) {next : ℕ → ℕ} {start : ℕ} (k : κ) (hv : Visits (next^[·] start) size)
    (hempty : ∃ i < size, t i = .empty) :
    ∃ idx firstDeleted,
      walkBy (fun i => stopsAt key k (t i)) (noteDeleted t) next size start none = some (idx, firstDeleted) ∧
        Found key (next^[·] start) size t k idx firstDeleted := by
  obtain ⟨i, hi, hi'⟩ := hempty
  obtain ⟨j, hj, rfl⟩ := hv.reach i hi
  obtain ⟨d, -, hstop, hbefore, hwalk⟩ := exists_walkBy (fun i => stopsAt key k (t i)) (noteDeleted t) hj
    (by rw [hi']; rfl) none
  have hpath : ∀ j < d, t (next^[j] start) ≠ .empty ∧ ∀ x, t (next^[j] start) = .elem x → key x ≠ k := fun j hj =>
    ⟨fun he => hbefore j hj (by rw [he]; rfl), fun x hx hk => hbefore j hj (by simp [hx, stopsAt, hk])⟩
  refine ⟨_, _, hwalk, hv.lt d, ⟨d, rfl, hpath⟩, ?_, fun i hi => ?_⟩
  · cases hd : t (next^[d] start) with
    | empty => exact Or.inl rfl
    | deleted =>
      rw [hd] at hstop
      cases hstop
    | elem x => exact Or.inr ⟨x, rfl, by simpa [hd, stopsAt] using hstop⟩
  · rcases foldl_noteDeleted _ hi with hnone | ⟨hmem, hdel⟩
    · cases hnone
    · obtain ⟨j, hj, rfl⟩ := List.mem_map.mp hmem
      exact ⟨hv.lt j, hdel, j, rfl, fun l hl => (hpath l (hl.trans (List.mem_range.mp hj))).1⟩

theorem Found.chain (h : Found key spot size t k idx firstDeleted) : Chain t spot idx := by
  obtain ⟨d, hd, hpath⟩ := h.path
  exact ⟨d, hd, fun j hj => (hpath j hj).1⟩

theorem Found.slot {spot : κ → ℕ → ℕ} {m : κ → Option α} (h : Found key (spot k) size t k idx firstDeleted)
    (hs : Stores key spot size t m) :
    (t idx = .empty ∧ m k = none) ∨ ∃ x, t idx = .elem x ∧ key x = k ∧ m k = some x := by
  rcases h.stop with hempty | ⟨x, hx, rfl⟩
  · refine Or.inl ⟨hempty, Option.eq_none_iff_forall_ne_some.mpr fun x hx => ?_⟩
    obtain ⟨d, rfl, hpath⟩ := h.path
    obtain ⟨⟨p, hp, hpx⟩, rfl⟩ := (hs.mem k x).mp hx
    obtain ⟨d', rfl, hchain⟩ := hs.chain p hp x hpx
    -- the element would have been met before the empty place
    rcases Nat.lt_trichotomy d' d with hlt | rfl | hgt
    · exact (hpath d' hlt).2 x hpx rfl
    · rw [hpx] at hempty
      cases hempty
    · exact hchain d hgt hempty
  · exact Or.inr ⟨x, hx, rfl, hs.of_elem h.lt hx⟩

end Finding

/-! ## Copying -/

/-- The table has the elements of the first `n` places of an old one. -/
structure Copied (key : α → κ) (spot : κ → ℕ → ℕ) (size : ℕ) (old : ℕ → Entry α) (n : ℕ) (t : ℕ → Entry α) : Prop where
  stored : ∃ m, (∀ k x, m k = some x ↔ Has old n x ∧ key x = k) ∧ Stores key spot size t m
  counted : Counted t size (Nat.count (fun i => (old i).isElem) n) 0

theorem has_succ {n : ℕ} {x : α} : Has t (n + 1) x ↔ Has t n x ∨ t n = .elem x := by
  constructor
  · rintro ⟨i, hi, hx⟩
    rcases Nat.lt_succ_iff_lt_or_eq.mp hi with hlt | rfl
    · exact Or.inl ⟨i, hlt, hx⟩
    · exact Or.inr hx
  · rintro (⟨i, hi, hx⟩ | hx)
    · exact ⟨i, by omega, hx⟩
    · exact ⟨n, by omega, hx⟩

section Copying
variable {key : α → κ} {spot : κ → ℕ → ℕ} {old : ℕ → Entry α} {oldSize n : ℕ} {m : κ → Option α}

theorem copied_zero (old : ℕ → Entry α) : Copied key spot size old 0 fun _ => .empty where
  stored := ⟨fun _ => none, fun k x => ⟨fun hx => by simp at hx, fun ⟨⟨_, hi, _⟩, _⟩ => by omega⟩, stores_empty⟩
  counted := counted_empty size

variable (h : Copied key spot size old n t)
include h

theorem Copied.stores (hm : ∀ k x, m k = some x ↔ Has old n x ∧ key x = k) :
    Stores key spot size t m := by
  obtain ⟨m', hm', hs⟩ := h.stored
  obtain rfl : m = m' := funext fun k => Option.ext fun x => (hm k x).trans (hm' k x).symm
  exact hs

theorem Copied.has_iff (x : α) : Has t size x ↔ Has old n x := by
  obtain ⟨m, hm, hs⟩ := h.stored
  have hiff := (hs.mem (key x) x).symm.trans (hm (key x) x)
  simpa only [and_true] using hiff

theorem Copied.skip (hn : (old n).isElem = false) :
    Copied key spot size old (n + 1) t := by
  obtain ⟨m, hm, hs⟩ := h.stored
  refine ⟨⟨m, fun k x => ?_, hs⟩, ?_⟩
  · rw [hm, has_succ, or_iff_left fun hx => by rw [hx] at hn; cases hn]
  · rw [Nat.count_succ, if_neg (by simp [hn])]
    exact h.counted

theorem Copied.put [DecidableEq κ] (hold : Unique key oldSize old) (hn : n < oldSize)
    {x : α} (hx : old n = .elem x) (hidx : idx < size) (hempty : t idx = .empty)
    (hchain : Chain t (spot (key x)) idx) : Copied key spot size old (n + 1) (update t idx (.elem x)) := by
  obtain ⟨m', hm', hs⟩ := h.stored
  -- an element with the key that was copied before would be another element of the old table with the key
  have hnone : m' (key x) = none := Option.eq_none_iff_forall_ne_some.mpr fun y hy => by
    obtain ⟨⟨i, hi, hiy⟩, hkey⟩ := (hm' _ y).mp hy
    have := hold i (hi.trans hn) n hn y x hiy hx hkey
    omega
  refine ⟨⟨_, fun k y => ?_, hs.put hidx hchain (Or.inr ⟨fun y => by simp [hempty], hnone⟩)⟩, ?_⟩
  · have := hm' k y
    rw [has_succ, hx, update_apply]
    grind
  · refine h.counted.update hidx _ ?_ (by simp [hempty, Entry.isDeleted])
    rw [Nat.count_succ, if_pos (by rw [hx]; rfl)]
    simp [hempty, Entry.isEmpty]

end Copying
end Hashed
