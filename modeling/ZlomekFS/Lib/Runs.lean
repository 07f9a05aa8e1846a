import Mathlib.Tactic

/-! Runs of a system given by a partial step function over events. A guard restricts the events a
run may contain; the system itself has the guard that is always true. -/

namespace Runs

variable {σ ε : Type} (step : σ → ε → Option σ) (guard : σ → ε → Prop) (init : σ → Prop)

inductive Reach : σ → Prop
  | init {s : σ} : init s → Reach s
  | step {s s' : σ} {e : ε} : Reach s → guard s e → step s e = some s' → Reach s'

/-- The state after a list of events, if each of them is possible. -/
def run (s : σ) : List ε → Option σ
  | [] => some s
  | e :: es => (step s e).bind fun s' => run s' es

/-- The states of a run, from the first one on, as far as its events are possible. -/
def visited (s : σ) : List ε → List σ
  | [] => [s]
  | e :: es =>
    s :: match step s e with
      | some s' => visited s' es
      | none => []

/-- The events of a run that were possible, each with the state before it. -/
def taken (s : σ) : List ε → List (σ × ε)
  | [] => []
  | e :: es =>
    match step s e with
    | some s' => (s, e) :: taken s' es
    | none => []

/-- The events of a run meet a condition, up to the first one that is not possible. -/
def Guarded (s : σ) : List ε → Prop
  | [] => True
  | e :: es =>
    guard s e ∧ match step s e with
      | some s' => Guarded s' es
      | none => True

instance [∀ s e, Decidable (guard s e)] (s : σ) : ∀ es, Decidable (Guarded step guard s es)
  | [] => isTrue trivial
  | e :: es =>
    match h : step s e with
    | some s' =>
      have := instDecidableGuarded s' es
      decidable_of_iff (guard s e ∧ Guarded step guard s' es) (by rw [Guarded, h])
    | none => decidable_of_iff (guard s e) (by rw [Guarded, h, and_true])

variable {step guard init}

theorem run_append (s : σ) (es es' : List ε) : run step s (es ++ es') = (run step s es).bind fun s' => run step s' es' := by
  induction es generalizing s with
  | nil => rfl
  | cons e es ih =>
    rw [List.cons_append, run, run, Option.bind_assoc]
    exact congrArg _ (funext fun s' => ih s')

theorem mem_visited_of_run (es : List ε) : ∀ {s s' : σ}, run step s es = some s' → s' ∈ visited step s es := by
  induction es with
  | nil =>
    intro s s' h
    rw [Option.some_inj.mp h]
    exact List.mem_cons_self
  | cons e es ih =>
    intro s s' h
    obtain ⟨s1, hs1, hr⟩ := Option.bind_eq_some_iff.mp h
    rw [visited, hs1]
    exact List.mem_cons_of_mem _ (ih hr)

/-- An invariant that holds initially and that every guarded step keeps holds in every reached
state. -/
theorem Reach.inv {I : σ → Prop} (h0 : ∀ s, init s → I s)
    (hs : ∀ s e s', I s → guard s e → step s e = some s' → I s') {s : σ} (h : Reach step guard init s) : I s := by
  induction h with
  | init h => exact h0 _ h
  | step _ hg hst ih => exact hs _ _ _ ih hg hst

theorem Reach.run {s s' : σ} (h : Reach step guard init s) (es : List ε) (hg : Guarded step guard s es)
    (hr : run step s es = some s') : Reach step guard init s' := by
  induction es generalizing s with
  | nil =>
    obtain rfl := Option.some.inj hr
    exact h
  | cons e es ih =>
    obtain ⟨s1, hs1, hr⟩ := Option.bind_eq_some_iff.mp hr
    obtain ⟨he, hg⟩ := hg
    rw [hs1] at hg
    exact ih (h.step he hs1) hg hr

/-- Events that meet a condition are possible and preserve an invariant, so the run goes to its end. -/
theorem run_guarded {I : σ → Prop} (hI : ∀ s e, I s → guard s e → ∃ s', step s e = some s' ∧ I s') (es : List ε) :
    ∀ s, I s → Guarded step guard s es → (∃ s', run step s es = some s') ∧ ∀ x ∈ visited step s es, I x := by
  induction es with
  | nil =>
    intro s hs _
    exact ⟨⟨s, rfl⟩, by simpa [visited] using hs⟩
  | cons e es ih =>
    intro s hs hg
    obtain ⟨s', hstep, hs'⟩ := hI s e hs hg.1
    have hrest := hg.2
    rw [hstep] at hrest
    obtain ⟨⟨last, hrun⟩, hvis⟩ := ih s' hs' hrest
    refine ⟨⟨last, by rw [run, hstep, Option.bind_some, hrun]⟩, ?_⟩
    simp only [visited, hstep, List.forall_mem_cons]
    exact ⟨hs, hvis⟩

/-- All states of a run are good if and only if all of them meet the condition under which the invariant is
kept. -/
theorem visited_iff {I P C : σ → Prop} (hI : ∀ s e s', I s → C s → step s e = some s' → I s')
    (hP : ∀ s, I s → (P s ↔ C s)) (es : List ε) :
    ∀ s, I s → ((∀ x ∈ visited step s es, P x) ↔ ∀ x ∈ visited step s es, C x) := by
  induction es with
  | nil =>
    intro s hs
    simpa [visited] using hP s hs
  | cons e es ih =>
    intro s hs
    simp only [visited, List.forall_mem_cons]
    rw [hP s hs]
    refine and_congr_right fun hc => ?_
    cases hstep : step s e with
    | none => simp
    | some s' => exact ih s' (hI s e s' hs hc hstep)

theorem visited_inv {I : σ → Prop} {C : σ → ε → Prop} (hI : ∀ s e s', I s → C s e → step s e = some s' → I s')
    (es : List ε) : ∀ s, I s → (∀ x ∈ taken step s es, C x.1 x.2) → ∀ x ∈ visited step s es, I x := by
  induction es with
  | nil =>
    intro s hs _
    simpa [visited] using hs
  | cons e es ih =>
    intro s hs hc
    cases hstep : step s e with
    | none => simpa [visited, hstep] using hs
    | some s' =>
      simp only [visited, taken, hstep, List.forall_mem_cons] at hc ⊢
      exact ⟨hs, ih s' (hI s e s' hs hc.1 hstep) hc.2⟩

/-- All states of a run are good if and only if all its events meet the condition under which the state after
the event is good. -/
theorem visited_iff_taken {I P : σ → Prop} {C : σ → ε → Prop}
    (hI : ∀ s e s', I s → P s → C s e → step s e = some s' → I s')
    (hP : ∀ s e s', I s → P s → step s e = some s' → (P s' ↔ C s e)) (es : List ε) :
    ∀ s, I s → P s → ((∀ x ∈ visited step s es, P x) ↔ ∀ x ∈ taken step s es, C x.1 x.2) := by
  induction es with
  | nil =>
    intro s _ hs
    simpa [visited, taken] using hs
  | cons e es ih =>
    intro s hi hs
    cases hstep : step s e with
    | none => simpa [visited, taken, hstep] using hs
    | some s' =>
      simp only [visited, taken, hstep, List.forall_mem_cons, hs, true_and]
      by_cases hc : C s e
      · rw [ih s' (hI s e s' hi hs hc hstep) ((hP s e s' hi hs hstep).mpr hc)]
        simp only [hc, true_and]
      · have hbad : ¬ P s' := fun h => hc ((hP s e s' hi hs hstep).mp h)
        have hmem : s' ∈ visited step s' es := by cases es <;> simp [visited]
        exact iff_of_false (fun h => hbad (h s' hmem)) fun h => hc h.1

end Runs
