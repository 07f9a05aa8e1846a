import Mathlib.Tactic

/-! Tables as lists of keys with values: what `List.lookup` finds after entries were removed or added. -/

namespace Tables

variable {α β : Type} [BEq α] [LawfulBEq α] {a k : α} {b : β}

theorem lookup_filter_key (f : α → Bool) (l : List (α × β)) :
    (l.filter fun e => f e.1).lookup a = if f a then l.lookup a else none := by
  induction l with
  | nil => simp
  | cons e l ih =>
    obtain ⟨k, b⟩ := e
    by_cases ha : a = k
    · subst ha
      cases hf : f a <;> simp [hf, ih]
    · have hne : (a == k) = false := beq_eq_false_iff_ne.mpr ha
      cases hf : f k <;> simp [hf, List.lookup_cons, hne, ih]

theorem lookup_filter_ne [DecidableEq α] (l : List (α × β)) :
    (l.filter (·.1 ≠ k)).lookup a = if a = k then none else l.lookup a := by
  have h := lookup_filter_key (a := a) (fun x => decide (x ≠ k)) l
  simpa using h

theorem lookup_concat [DecidableEq α] {l : List (α × β)} (hk : l.lookup k = none) :
    (l ++ [(k, b)]).lookup a = if a = k then some b else l.lookup a := by
  rw [List.lookup_append]
  by_cases ha : a = k
  · subst ha
    simp [hk]
  · simp [List.lookup_cons, beq_eq_false_iff_ne.mpr ha, ha]

theorem lookup_eq_none {l : List (α × β)} : l.lookup a = none ↔ a ∉ l.map Prod.fst := by
  simp only [List.lookup_eq_none_iff, List.mem_map, not_exists, not_and, bne_iff_ne]
  exact forall₂_congr fun e _ => ne_comm

section unique

variable {l : List (α × β)} (h : (l.map Prod.fst).Nodup)
include h

/-- With each key once the table is the set of its entries. -/
theorem lookup_eq_some : l.lookup a = some b ↔ (a, b) ∈ l := by
  induction l with
  | nil => simp
  | cons e l ih =>
    obtain ⟨k, c⟩ := e
    rw [List.map_cons, List.nodup_cons] at h
    by_cases ha : a = k
    · subst ha
      have hnot : (a, b) ∉ l := fun hm => h.1 (List.mem_map.mpr ⟨_, hm, rfl⟩)
      simp [hnot, eq_comm]
    · simp [List.lookup_cons, beq_eq_false_iff_ne.mpr ha, ha, ih h.2]

theorem lookup_filter_value (f : β → Bool) : (l.filter fun e => f e.2).lookup a = (l.lookup a).filter f := by
  have hsub : ((l.filter fun e => f e.2).map Prod.fst).Nodup := h.sublist (List.filter_sublist.map _)
  ext b
  rw [lookup_eq_some hsub, List.mem_filter, ← lookup_eq_some h, Option.filter_eq_some_iff]

end unique

/-! ## Tables of things by their key -/

section inverse

variable {κ ι : Type} [DecidableEq κ] [DecidableEq ι] {table : κ → Option ι} {key : ι → Option κ} {k : κ} {i : ι}

/-- The table finds each thing under its key. -/
def Inverse (table : κ → Option ι) (key : ι → Option κ) : Prop := ∀ k i, table k = some i ↔ key i = some k

theorem Inverse.insert (h : Inverse table key) (hk : table k = none) (hi : key i = none) :
    Inverse (Function.update table k (some i)) (Function.update key i (some k)) := by
  intro k' i'
  by_cases hk' : k' = k <;> by_cases hi' : i' = i
  · subst hk' hi'
    simp
  · subst hk'
    simp [hi', Ne.symm hi', ← h k' i', hk]
  · subst hi'
    simp [hk', Ne.symm hk', h k' i', hi]
  · simp [hk', hi', h k' i']

theorem Inverse.erase (h : Inverse table key) (hi : key i = some k) :
    Inverse (Function.update table k none) (Function.update key i none) := by
  have hk := (h k i).mpr hi
  intro k' i'
  by_cases hk' : k' = k <;> by_cases hi' : i' = i
  · subst hk' hi'
    simp
  · subst hk'
    simp [hi', ← h k' i', hk, Ne.symm hi']
  · subst hi'
    simp [hk', h k' i', hi, Ne.symm hk']
  · simp [hk', hi', h k' i']

end inverse

end Tables
