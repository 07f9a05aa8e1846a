import Mathlib.Tactic

/-! Listings that are read in parts. A call puts entries into a buffer, which may refuse any of them, and the next call
goes on from the cursor of the last entry that was taken. -/

namespace Cursors

/-! ## One call -/

section Call
variable {α β σ : Type}

/-- Entries go to the buffer until one is refused; whether all were taken. -/
def fill (accept : List β → β → Bool) : List β → List β → List β × Bool
  | [], out => (out, true)
  | b :: l, out => if accept out b then fill accept l (out ++ [b]) else (out, false)

/-- The entries that the items show, where each item may change what the next ones show. -/
def shown (shows : σ → α → σ × Option β) : σ → List α → List β
  | _, [] => []
  | s, a :: l =>
    match shows s a with
    | (s, none) => shown shows s l
    | (s, some b) => b :: shown shows s l

/-- The loop that goes through the items and fills the buffer. -/
def scan (shows : σ → α → σ × Option β) (accept : List β → β → Bool) : σ → List α → List β → σ × List β × Bool
  | s, [], out => (s, out, true)
  | s, a :: l, out =>
    match shows s a with
    | (s, none) => scan shows accept s l out
    | (s, some b) => if accept out b then scan shows accept s l (out ++ [b]) else (s, out, false)

variable {accept : List β → β → Bool}

theorem scan_eq_fill (shows : σ → α → σ × Option β) (s : σ) (l : List α) (out : List β) :
    (scan shows accept s l out).2 = fill accept (shown shows s l) out := by
  induction l generalizing s out with
  | nil => rfl
  | cons a l ih =>
    unfold scan shown
    cases shows s a with
    | mk s' b =>
      cases b with
      | none => exact ih s' out
      | some b =>
        simp only [fill]
        split_ifs
        · exact ih s' (out ++ [b])
        · rfl

theorem fill_append (l l' out : List β) :
    fill accept (l ++ l') out =
      if (fill accept l out).2 then fill accept l' (fill accept l out).1 else fill accept l out := by
  induction l generalizing out with
  | nil => simp [fill]
  | cons b l ih =>
    simp only [List.cons_append, fill]
    split_ifs with hb hall hall
    · rw [ih, if_pos hall]
    · rw [ih, if_neg hall]
    · exact absurd hall (by simp)
    · rfl

theorem fill_spec (l out : List β) :
    ∃ new, (fill accept l out).1 = out ++ new ∧ new <+: l ∧ ((fill accept l out).2 = true ↔ new = l) := by
  induction l generalizing out with
  | nil => exact ⟨[], by simp [fill], List.nil_prefix, by simp [fill]⟩
  | cons b l ih =>
    simp only [fill]
    split_ifs
    · obtain ⟨new, hout, hpre, hall⟩ := ih (out ++ [b])
      refine ⟨b :: new, by rw [hout, List.append_assoc]; rfl, (List.prefix_cons_inj b).mpr hpre, ?_⟩
      rw [hall, List.cons.injEq]
      simp
    · exact ⟨[], by simp, List.nil_prefix, by simp⟩

theorem fill_ne_nil {l : List β} (hl : l ≠ []) (hfirst : ∀ b ∈ l, accept [] b = true) : (fill accept l []).1 ≠ [] := by
  cases l with
  | nil => exact absurd rfl hl
  | cons b l =>
    obtain ⟨new, hnew, -⟩ := @fill_spec β accept l [b]
    simp only [fill, hfirst b List.mem_cons_self, if_true, List.nil_append, hnew]
    simp

end Call

/-! ## Sequences of calls -/

section Calls
variable {κ β : Type} (resume : β → κ) (call : ℕ → κ → List β) (start : κ)

/-- The cursor after some calls, and all the entries they gave. -/
def calls : ℕ → κ × List β
  | 0 => (start, [])
  | n + 1 =>
    let new := call n (calls n).1
    ((new.getLast?.map resume).getD (calls n).1, (calls n).2 ++ new)

variable {resume call start}

/-- Where each cursor stands behind its entry, the calls give the whole list once and then nothing. -/
theorem calls_spec {list : κ → List β} {Good : κ → Prop} (hstart : Good start)
    (hcall : ∀ n c, Good c → call n c <+: list c ∧ (list c ≠ [] → call n c ≠ []))
    (hresume : ∀ c l e r, Good c → list c = l ++ e :: r → Good (resume e) ∧ list (resume e) = r) (n : ℕ) :
    Good (calls resume call start n).1 ∧
      (calls resume call start n).2 ++ list (calls resume call start n).1 = list start ∧
      (list (calls resume call start n).1).length ≤ (list start).length - n := by
  induction n with
  | zero => exact ⟨hstart, by simp [calls], by simp [calls]⟩
  | succ n ih =>
    obtain ⟨hgood, hlist, hlen⟩ := ih
    simp only [calls]
    generalize (calls resume call start n).1 = c at hgood hlist hlen ⊢
    generalize (calls resume call start n).2 = out at hlist ⊢
    obtain ⟨⟨rest, hrest⟩, hsome⟩ := hcall n c hgood
    rcases List.eq_nil_or_concat (call n c) with hnil | ⟨l, e, hlast⟩
    · -- nothing is given when nothing is left
      have hend : list c = [] := by
        by_contra hne
        exact hsome hne hnil
      rw [hnil]
      simp only [List.getLast?_nil, Option.map_none, Option.getD_none, List.append_nil]
      exact ⟨hgood, hlist, by simp [hend]⟩
    · rw [List.concat_eq_append] at hlast
      have hsplit : list c = l ++ e :: rest := by
        rw [← hrest, hlast]
        simp
      obtain ⟨hgood', hlist'⟩ := hresume c l e rest hgood hsplit
      rw [hlast]
      simp only [List.getLast?_append, List.getLast?_singleton, Option.some_or, Option.map_some, Option.getD_some, hlist']
      refine ⟨hgood', ?_, ?_⟩
      · rw [← hlist, hsplit]
        simp
      · rw [hsplit] at hlen
        simp only [List.length_append, List.length_cons] at hlen
        omega

end Calls

end Cursors
