import Mathlib.Tactic

/-! Names between separators, found in one pass: leading separators are skipped, and the one behind a name is taken
with it. -/

namespace Components
variable {α : Type} [DecidableEq α] (sep : α)

/-- Where the pass is: at the start of a round, behind leading separators, or in a name. -/
inductive Place (α : Type)
  | start
  | skipping
  | inside (name : List α)

def scan : Place α → List α → List (List α)
  | .start, [] => []
  | .skipping, [] => [[]]
  | .inside name, [] => [name]
  | .start, a :: l => if a = sep then scan .skipping l else scan (.inside [a]) l
  | .skipping, a :: l => if a = sep then scan .skipping l else scan (.inside [a]) l
  | .inside name, a :: l => if a = sep then name :: scan .start l else scan (.inside (name ++ [a])) l

def fields (l : List α) : List (List α) := (l.splitOnP (· = sep)).filter (· ≠ [])

def path (names : List (List α)) : List α := names.flatMap (sep :: ·)

variable {sep}

def Place.passed : Place α → List α
  | .inside name => name
  | _ => []

theorem scan_spec (p : Place α) (hp : ∀ name, p = .inside name → name ≠ []) (l : List α) :
    ∃ e, (e = [] ∨ e = [[]]) ∧
      scan sep p l = ((l.splitOnP (· = sep)).modifyHead (p.passed ++ ·)).filter (· ≠ []) ++ e := by
  induction l generalizing p with
  | nil =>
    cases p with
    | start => exact ⟨[], Or.inl rfl, by simp [scan, Place.passed]⟩
    | skipping => exact ⟨[[]], Or.inr rfl, by simp [scan, Place.passed]⟩
    | inside name => exact ⟨[], Or.inl rfl, by simp [scan, Place.passed, hp name rfl]⟩
  | cons a l ih =>
    have hid (l : List (List α)) : l.modifyHead (fun x => x) = l := by cases l <;> rfl
    rw [List.splitOnP_cons_eq_if_modifyHead]
    by_cases ha : a = sep
    · cases p with
      | start | skipping => simpa [scan, ha, Place.passed, hid] using ih .skipping (fun _ h => by cases h)
      | inside name => simpa [scan, ha, Place.passed, hid, hp name rfl] using ih .start (fun _ h => by cases h)
    · cases p with
      | start | skipping =>
        simpa [scan, ha, Place.passed, List.modifyHead_modifyHead, Function.comp_def] using ih (.inside [a]) (by simp)
      | inside name =>
        simpa [scan, ha, Place.passed, List.modifyHead_modifyHead, Function.comp_def] using ih (.inside (name ++ [a])) (by simp)

/-- The pass finds the names, and an empty one at the end where separators are left. -/
theorem scan_start (l : List α) : scan sep .start l = fields sep l ∨ scan sep .start l = fields sep l ++ [[]] := by
  obtain ⟨e, he, hscan⟩ := @scan_spec α _ sep .start (fun _ h => by cases h) l
  have hid (l : List (List α)) : l.modifyHead (fun x => x) = l := by cases l <;> rfl
  simp only [Place.passed, List.nil_append, hid] at hscan
  rcases he with rfl | rfl
  · exact Or.inl (by simpa [fields] using hscan)
  · exact Or.inr hscan

theorem scan_ne_nil (p : Place α) {l : List α} (h : p ≠ .start ∨ l ≠ []) : scan sep p l ≠ [] := by
  induction l generalizing p with
  | nil => cases p <;> simp_all [scan]
  | cons a l ih =>
    cases p with
    | start | skipping => unfold scan; split_ifs <;> exact ih _ (by simp)
    | inside name => unfold scan; split_ifs <;> simp [ih]

theorem scan_inside {name : List α} (hname : sep ∉ name) (acc l : List α) :
    scan sep (.inside acc) (name ++ l) = scan sep (.inside (acc ++ name)) l := by
  induction name generalizing acc with
  | nil => simp
  | cons a name ih =>
    rw [List.mem_cons, not_or] at hname
    rw [List.cons_append, scan, if_neg (Ne.symm hname.1), ih hname.2, List.append_assoc]
    rfl

theorem scan_name {p : Place α} (hp : p = .start ∨ p = .skipping) {name : List α} (hne : name ≠ []) (hname : sep ∉ name)
    (l : List α) : scan sep p (name ++ l) = scan sep (.inside name) l := by
  cases name with
  | nil => exact absurd rfl hne
  | cons a name =>
    rw [List.mem_cons, not_or] at hname
    have hstep : scan sep p (a :: name ++ l) = scan sep (.inside [a]) (name ++ l) := by
      rcases hp with rfl | rfl <;> simp [scan, Ne.symm hname.1]
    rw [hstep, scan_inside hname.2]
    rfl

theorem scan_names {p : Place α} (hp : p = .start ∨ p = .skipping) {name : List α} {rest : List (List α)}
    (h : ∀ x ∈ name :: rest, x ≠ [] ∧ sep ∉ x) : scan sep p (name ++ path sep rest) = name :: rest := by
  induction rest generalizing p name with
  | nil =>
    obtain ⟨hne, hname⟩ := h name List.mem_cons_self
    rw [scan_name hp hne hname]
    rfl
  | cons next rest ih =>
    obtain ⟨hne, hname⟩ := h name List.mem_cons_self
    rw [scan_name hp hne hname, show path sep (next :: rest) = sep :: (next ++ path sep rest) from rfl, scan, if_pos rfl,
      ih (Or.inl rfl) fun x hx => h x (List.mem_cons_of_mem _ hx)]

theorem scan_path {names : List (List α)} (h : ∀ x ∈ names, x ≠ [] ∧ sep ∉ x) :
    scan sep .start (path sep names) = names := by
  cases names with
  | nil => rfl
  | cons name rest =>
    rw [show path sep (name :: rest) = sep :: (name ++ path sep rest) from rfl, scan, if_pos rfl]
    exact scan_names (Or.inr rfl) h

end Components
