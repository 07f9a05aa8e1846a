import Mathlib.Tactic

/-! Arrays whose members know their index. A member is added at the end; when one is removed, the last member takes its
place. -/

namespace Indexed

variable {α : Type}

/-- The array without the member at index `i`. -/
def swapRemove (l : List α) (i : ℕ) : List α :=
  match l.getLast? with
  | some top => (l.set i top).dropLast
  | none => l

/-- The members of the array are those with a property, each at its index. -/
def Holds (l : List α) (mem : α → Prop) (pos : α → ℕ) : Prop := ∀ i a, l[i]? = some a ↔ mem a ∧ pos a = i

variable {l : List α} {mem mem' : α → Prop} {pos pos' : α → ℕ} {a top : α}

theorem holds_nil (h : ∀ a, ¬ mem a) : Holds [] mem pos := by
  intro i a
  simp [h a]

namespace Holds

theorem mem_iff (h : Holds l mem pos) : a ∈ l ↔ mem a := by
  rw [List.mem_iff_getElem?]
  constructor
  · rintro ⟨i, hi⟩
    exact ((h i a).mp hi).1
  · intro ha
    exact ⟨pos a, (h _ a).mpr ⟨ha, rfl⟩⟩

theorem nodup (h : Holds l mem pos) : l.Nodup := by
  rw [List.nodup_iff_getElem?_ne_getElem?]
  intro i j hij hj heq
  rw [List.getElem?_eq_getElem hj] at heq
  have hi := ((h i _).mp heq).2
  have hj' := ((h j _).mp (List.getElem?_eq_getElem hj)).2
  omega

theorem congr (h : Holds l mem pos) (hmem : ∀ x, mem' x ↔ mem x) (hpos : ∀ x, mem x → pos' x = pos x) :
    Holds l mem' pos' := by
  intro i x
  rw [h i x, hmem x]
  exact and_congr_right fun hx => by rw [hpos x hx]

theorem push (h : Holds l mem pos) (ha : ¬ mem a) (hmem : ∀ x, mem' x ↔ mem x ∨ x = a) (hpos : pos' a = l.length)
    (hpos' : ∀ x, mem x → pos' x = pos x) : Holds (l ++ [a]) mem' pos' := by
  intro i x
  rw [hmem x]
  by_cases hi : i < l.length
  · rw [List.getElem?_append_left hi, h i x]
    constructor
    · rintro ⟨hx, hpx⟩
      exact ⟨Or.inl hx, (hpos' x hx).trans hpx⟩
    · rintro ⟨hx | rfl, hpx⟩
      · exact ⟨hx, (hpos' x hx).symm.trans hpx⟩
      · omega
  · rw [List.getElem?_append_right (not_lt.mp hi)]
    constructor
    · intro hx
      obtain ⟨hlt, heq⟩ := List.getElem?_eq_some_iff.mp hx
      simp only [List.length_singleton, Nat.lt_one_iff] at hlt
      simp only [hlt, List.getElem_cons_zero] at heq
      exact ⟨Or.inr heq.symm, by rw [← heq, hpos]; omega⟩
    · rintro ⟨hx | rfl, hpx⟩
      · have hlt := (List.getElem?_eq_some_iff.mp ((h _ x).mpr ⟨hx, rfl⟩)).1
        rw [hpos' x hx] at hpx
        omega
      · rw [← hpx, hpos, Nat.sub_self]
        rfl

theorem getElem?_swapRemove (htop : l.getLast? = some top) (i j : ℕ) (hi : i < l.length) :
    (swapRemove l i)[j]? = if j < l.length - 1 then if j = i then some top else l[j]? else none := by
  rw [swapRemove, htop]
  dsimp only
  rw [List.getElem?_dropLast, List.length_set, List.getElem?_set]
  split_ifs with h1 h2 h3 h4
  · rfl
  · omega
  · omega
  · rfl
  · rfl

theorem remove (h : Holds l mem pos) (ha : mem a) (htop : l.getLast? = some top) (hmem : ∀ x, mem' x ↔ mem x ∧ x ≠ a)
    (hpos : top ≠ a → pos' top = pos a) (hpos' : ∀ x, mem x → x ≠ a → x ≠ top → pos' x = pos x) :
    Holds (swapRemove l (pos a)) mem' pos' := by
  have hat := (h _ a).mpr ⟨ha, rfl⟩
  have hlt := (List.getElem?_eq_some_iff.mp hat).1
  have hlast : l[l.length - 1]? = some top := by rw [← List.getLast?_eq_getElem?, htop]
  have hmtop := (h _ top).mp hlast
  intro i x
  rw [getElem?_swapRemove htop (pos a) i hlt, hmem x]
  constructor
  · intro hx
    split_ifs at hx with hi hia
    · -- the place of the removed member
      obtain rfl := Option.some.inj hx
      have hne : top ≠ a := by
        rintro rfl
        omega
      exact ⟨⟨hmtop.1, hne⟩, (hpos hne).trans hia.symm⟩
    · have hxm := (h i x).mp hx
      have hxa : x ≠ a := by
        rintro rfl
        exact hia hxm.2.symm
      have hxt : x ≠ top := by
        rintro rfl
        omega
      exact ⟨⟨hxm.1, hxa⟩, (hpos' x hxm.1 hxa hxt).trans hxm.2⟩
  · rintro ⟨⟨hx, hxa⟩, hpx⟩
    by_cases hxt : x = top
    · subst hxt
      rw [hpos hxa] at hpx
      have hne : pos a ≠ l.length - 1 := by
        intro heq
        rw [heq, hlast] at hat
        exact hxa (Option.some.inj hat)
      rw [if_pos (by omega), if_pos hpx.symm]
    · rw [hpos' x hx hxa hxt] at hpx
      have hxi := (h i x).mpr ⟨hx, hpx⟩
      have hix := (List.getElem?_eq_some_iff.mp hxi).1
      have hia : i ≠ pos a := by
        rintro rfl
        rw [hat] at hxi
        exact hxa (Option.some.inj hxi).symm
      have hil : i ≠ l.length - 1 := by
        rintro rfl
        rw [hlast] at hxi
        exact hxt (Option.some.inj hxi).symm
      rw [if_pos (by omega), if_neg hia]
      exact hxi

end Holds

end Indexed
