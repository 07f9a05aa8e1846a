import Mathlib.Tactic

/-! Doubly linked chains in a heap. A chain holds a list of addresses with values when every address has a
node that points to the neighbours in the list, and no other address has one. -/

namespace Chains
open List

variable {α : Type}

structure Node (α : Type) where
  val : α
  prev : Option ℕ
  next : Option ℕ

structure Chain (α : Type) where
  node : ℕ → Option (Node α)
  first : Option ℕ
  last : Option ℕ

namespace Chain

def nil : Chain α := ⟨fun _ => none, none, none⟩

/-- The node after a removed one, or the end of the chain, gets a new predecessor. -/
def setPrev (c : Chain α) : Option ℕ → Option ℕ → Chain α
  | some q, prev => { c with node := Function.update c.node q ((c.node q).map ({ · with prev := prev })) }
  | none, prev => { c with last := prev }

/-- The node before a removed one, or the start of the chain, gets a new successor. -/
def setNext (c : Chain α) : Option ℕ → Option ℕ → Chain α
  | some q, next => { c with node := Function.update c.node q ((c.node q).map ({ · with next := next })) }
  | none, next => { c with first := next }

def free (c : Chain α) (p : ℕ) : Chain α := { c with node := Function.update c.node p none }

def unlink (c : Chain α) (p : ℕ) : Chain α :=
  match c.node p with
  | none => c
  | some n => ((c.setPrev n.next n.prev).setNext n.prev n.next).free p

def append (c : Chain α) (p : ℕ) (x : α) : Chain α :=
  let c' : Chain α := { c with node := Function.update c.node p (some ⟨x, c.last, none⟩) }
  let c' := match c.last with
    | some q => c'.setNext (some q) (some p)
    | none => c'
  { c' with last := some p, first := if c.first = none then some p else c.first }

def headAddr (l : List (ℕ × α)) : Option ℕ := l.head?.map Prod.fst

def lastAddr (l : List (ℕ × α)) : Option ℕ := l.getLast?.map Prod.fst

structure Holds (c : Chain α) (l : List (ℕ × α)) : Prop where
  nodup : (l.map Prod.fst).Nodup
  first : c.first = headAddr l
  last : c.last = lastAddr l
  node : ∀ A p x B, l = A ++ (p, x) :: B → c.node p = some ⟨x, lastAddr A, headAddr B⟩
  unused : ∀ p, p ∉ l.map Prod.fst → c.node p = none

theorem holds_nil : (nil : Chain α).Holds [] := ⟨by simp, rfl, rfl, by simp, fun _ _ => rfl⟩

theorem Holds.fresh {c : Chain α} {l : List (ℕ × α)} (h : c.Holds l) {p : ℕ} (hp : c.node p = none) :
    p ∉ l.map Prod.fst := fun hmem => by
  obtain ⟨⟨q, x⟩, hq, rfl⟩ := mem_map.mp hmem
  obtain ⟨A, B, hl⟩ := append_of_mem hq
  rw [h.node A q x B hl] at hp
  cases hp

theorem Holds.not_mem {c : Chain α} {A B : List (ℕ × α)} {p : ℕ} {x : α} (h : c.Holds (A ++ (p, x) :: B)) :
    p ∉ (A ++ B).map Prod.fst := by
  have hnd := h.nodup
  rw [map_append, map_cons, nodup_middle, nodup_cons, ← map_append] at hnd
  exact hnd.1

theorem headAddr_mem {l : List (ℕ × α)} {q : ℕ} (h : headAddr l = some q) : q ∈ l.map Prod.fst := by
  obtain ⟨e, he, rfl⟩ := Option.map_eq_some_iff.mp h
  exact mem_map_of_mem (mem_of_mem_head? he)

theorem lastAddr_mem {l : List (ℕ × α)} {q : ℕ} (h : lastAddr l = some q) : q ∈ l.map Prod.fst := by
  obtain ⟨e, he, rfl⟩ := Option.map_eq_some_iff.mp h
  exact mem_map_of_mem (mem_of_mem_getLast? he)

theorem headAddr_append (A B : List (ℕ × α)) : headAddr (A ++ B) = (headAddr A).or (headAddr B) := by
  cases A <;> simp [headAddr]

theorem lastAddr_append (A B : List (ℕ × α)) : lastAddr (A ++ B) = (lastAddr B).or (lastAddr A) := by
  cases B using reverseRecOn <;> simp [lastAddr]

@[simp] theorem headAddr_cons (e : ℕ × α) (B : List (ℕ × α)) : headAddr (e :: B) = some e.1 := rfl

@[simp] theorem lastAddr_singleton (e : ℕ × α) : lastAddr [e] = some e.1 := rfl

theorem setPrev_node (c : Chain α) (at' prev : Option ℕ) (q : ℕ) :
    (c.setPrev at' prev).node q = (c.node q).map fun m => { m with prev := if at' = some q then prev else m.prev } := by
  cases at' with
  | none => simp [setPrev]
  | some r =>
    simp only [setPrev, Function.update_apply, Option.some.injEq]
    by_cases hq : q = r
    · simp [hq]
    · simp [hq, Ne.symm hq]

theorem setNext_node (c : Chain α) (at' next : Option ℕ) (q : ℕ) :
    (c.setNext at' next).node q = (c.node q).map fun m => { m with next := if at' = some q then next else m.next } := by
  cases at' with
  | none => simp [setNext]
  | some r =>
    simp only [setNext, Function.update_apply, Option.some.injEq]
    by_cases hq : q = r
    · simp [hq]
    · simp [hq, Ne.symm hq]

/-- What unlinking does to the other nodes: the neighbours are joined. -/
theorem unlink_node {c : Chain α} {p : ℕ} {n : Node α} (h : c.node p = some n) (q : ℕ) :
    (c.unlink p).node q = if q = p then none else (c.node q).map fun m =>
      ⟨m.val, if n.next = some q then n.prev else m.prev, if n.prev = some q then n.next else m.next⟩ := by
  unfold unlink
  rw [h]
  simp only [free, Function.update_apply, setNext_node, setPrev_node, Option.map_map]
  rfl

theorem setPrev_first (c : Chain α) (at' prev : Option ℕ) : (c.setPrev at' prev).first = c.first := by
  cases at' <;> rfl

theorem setPrev_last (c : Chain α) (at' prev : Option ℕ) :
    (c.setPrev at' prev).last = if at' = none then prev else c.last := by
  cases at' <;> rfl

theorem setNext_first (c : Chain α) (at' next : Option ℕ) :
    (c.setNext at' next).first = if at' = none then next else c.first := by
  cases at' <;> rfl

theorem setNext_last (c : Chain α) (at' next : Option ℕ) : (c.setNext at' next).last = c.last := by
  cases at' <;> rfl

theorem lastAddr_of_ne_nil {A B : List (ℕ × α)} (h : B ≠ []) : lastAddr (A ++ B) = lastAddr B := by
  rw [lastAddr_append, lastAddr, getLast?_eq_some_getLast h, Option.map_some, Option.some_or]

theorem headAddr_of_ne_nil {A B : List (ℕ × α)} (h : A ≠ []) : headAddr (A ++ B) = headAddr A := by
  rw [headAddr_append, headAddr, head?_eq_some_head h, Option.map_some, Option.some_or]

section Unlink
variable {c : Chain α} {A B : List (ℕ × α)} {p : ℕ} {x : α}

theorem Holds.unlink_before (h : c.Holds (A ++ (p, x) :: B)) {A' A'' : List (ℕ × α)} {q : ℕ} {y : α}
    (hA : A = A' ++ (q, y) :: A'') : (c.unlink p).node q = some ⟨y, lastAddr A', headAddr (A'' ++ B)⟩ := by
  subst hA
  have hnd : ((A' ++ (q, y) :: A'' ++ (p, x) :: B).map Prod.fst).Nodup := h.nodup
  have hq := h.node A' q y (A'' ++ (p, x) :: B) (by simp)
  simp only [map_append, map_cons, nodup_append, nodup_cons, mem_append, mem_cons,
    append_assoc, cons_append, not_or] at hnd
  obtain ⟨-, ⟨⟨hqA, hqp, hqB⟩, -⟩, -⟩ := hnd
  have hnext : headAddr B ≠ some q := fun he => hqB (headAddr_mem he)
  rw [unlink_node (h.node _ p x B rfl), if_neg hqp, hq]
  simp only [Option.map_some, hnext, if_false]
  cases A'' using reverseRecOn with
  | nil => simp [lastAddr_of_ne_nil]
  | append_singleton A'' e =>
    have hlast : lastAddr (A' ++ (q, y) :: (A'' ++ [e])) = some e.1 := by
      rw [← cons_append, ← append_assoc, lastAddr_of_ne_nil (by simp), lastAddr_singleton]
    have hne : e.1 ≠ q := fun he => hqA (by simp [← he])
    have hmid : A'' ++ [e] ≠ [] := by simp
    rw [hlast, if_neg (by simpa using hne), headAddr_of_ne_nil hmid, headAddr_of_ne_nil hmid]

theorem Holds.unlink_after (h : c.Holds (A ++ (p, x) :: B)) {B' B'' : List (ℕ × α)} {q : ℕ} {y : α}
    (hB : B = B' ++ (q, y) :: B'') : (c.unlink p).node q = some ⟨y, lastAddr (A ++ B'), headAddr B''⟩ := by
  subst hB
  have hnd : ((A ++ (p, x) :: (B' ++ (q, y) :: B'')).map Prod.fst).Nodup := h.nodup
  have hq := h.node (A ++ (p, x) :: B') q y B'' (by simp)
  simp only [map_append, map_cons, nodup_append, nodup_cons, mem_append, mem_cons,
    not_or] at hnd
  obtain ⟨-, ⟨⟨-, hpq, -⟩, -, -, hqB'⟩, hqA⟩ := hnd
  have hprev : lastAddr A ≠ some q := fun he => hqA q (lastAddr_mem he) q (by simp) rfl
  rw [unlink_node (h.node A p x _ rfl), if_neg (Ne.symm hpq), hq]
  simp only [Option.map_some, hprev, if_false]
  cases B' with
  | nil => simp
  | cons e B' =>
    have hne : e.1 ≠ q := hqB' e.1 (by simp) q (by simp)
    rw [cons_append, headAddr_cons, if_neg (by simpa using hne), append_cons A (p, x),
      lastAddr_of_ne_nil (by simp), lastAddr_of_ne_nil (by simp)]

theorem Holds.unlink (h : c.Holds (A ++ (p, x) :: B)) : (c.unlink p).Holds (A ++ B) := by
  have hn := h.node A p x B rfl
  have hsub : Sublist ((A ++ B).map Prod.fst) ((A ++ (p, x) :: B).map Prod.fst) :=
    ((sublist_cons_self (p, x) B).append_left A).map _
  refine ⟨h.nodup.sublist hsub, ?_, ?_, ?_, ?_⟩
  · rw [Chain.unlink, hn]
    simp only [free, setNext_first, setPrev_first, h.first]
    cases A <;> simp [headAddr, lastAddr]
  · rw [Chain.unlink, hn]
    simp only [free, setNext_last, setPrev_last, h.last]
    cases B with
    | nil => simp [headAddr]
    | cons e B =>
      rw [headAddr_cons, if_neg (by simp), lastAddr_of_ne_nil (by simp), lastAddr_of_ne_nil (by simp),
        ← singleton_append, lastAddr_of_ne_nil (by simp)]
  · intro A' q y B' heq
    rcases append_eq_append_iff.mp heq with ⟨B1, rfl, hB⟩ | ⟨A1, hA, hB⟩
    · exact h.unlink_after hB
    · cases A1 with
      | nil =>
        rw [append_nil] at hA
        subst hA
        have hB' : B = [] ++ (q, y) :: B' := hB.symm
        simpa using h.unlink_after hB'
      | cons e A1 =>
        obtain ⟨rfl, rfl⟩ := cons.inj hB
        exact h.unlink_before hA
  · intro q hq
    rw [unlink_node hn]
    by_cases hqp : q = p
    · rw [if_pos hqp]
    · rw [if_neg hqp, h.unused q, Option.map_none]
      simpa [hqp] using hq

end Unlink

theorem append_node {c : Chain α} {p : ℕ} (hp : c.last ≠ some p) (x : α) (q : ℕ) :
    (c.append p x).node q = if q = p then some ⟨x, c.last, none⟩ else
      (c.node q).map fun m => { m with next := if c.last = some q then some p else m.next } := by
  unfold append
  cases hlast : c.last with
  | none =>
    simp only [Function.update_apply, reduceCtorEq, if_false]
    by_cases hq : q = p
    · simp [hq]
    · simp [hq]
  | some r =>
    have hpr : p ≠ r := fun he => hp (by rw [hlast, he])
    simp only [setNext_node, Function.update_apply, Option.some.injEq]
    by_cases hq : q = p
    · simp [hq, Ne.symm hpr]
    · simp [hq]

theorem Holds.append {c : Chain α} {l : List (ℕ × α)} (h : c.Holds l) {p : ℕ} (hp : p ∉ l.map Prod.fst) (x : α) :
    (c.append p x).Holds (l ++ [(p, x)]) := by
  have hlast : c.last ≠ some p := fun he => hp (lastAddr_mem (h.last ▸ he))
  refine ⟨?_, ?_, ?_, ?_, ?_⟩
  · rw [map_append, nodup_append]
    refine ⟨h.nodup, by simp, fun a ha b hb hab => hp ?_⟩
    obtain rfl : b = p := by simpa using hb
    exact hab ▸ ha
  · have hfirst : (c.append p x).first = if c.first = none then some p else c.first := rfl
    rw [hfirst, h.first]
    cases l <;> simp [headAddr]
  · rw [lastAddr_of_ne_nil (by simp)]
    rfl
  · intro A q y B heq
    rw [append_node hlast]
    rcases append_eq_append_iff.mp heq with ⟨B1, rfl, hB⟩ | ⟨A1, hA, hB⟩
    · -- the new node itself
      obtain ⟨rfl, hq, rfl⟩ : B1 = [] ∧ (p, x) = (q, y) ∧ B = [] := by
        cases B1 with
        | nil => simpa using hB
        | cons e B1 => simp at hB
      obtain ⟨rfl, rfl⟩ := Prod.mk.inj hq
      rw [if_pos rfl, h.last, append_nil]
      rfl
    · cases A1 with
      | nil =>
        obtain ⟨hq, rfl⟩ := cons.inj hB
        obtain ⟨rfl, rfl⟩ := Prod.mk.inj hq
        rw [if_pos rfl, h.last, hA, append_nil]
        rfl
      | cons e A1 =>
        rw [cons_append] at hB
        obtain ⟨rfl, rfl⟩ := cons.inj hB
        have hq := h.node A q y A1 hA
        have hqp : q ≠ p := fun he => hp (by rw [hA, ← he]; simp)
        have hnd := h.nodup
        rw [if_neg hqp, hq, h.last, hA]
        simp only [Option.map_some]
        cases A1 using reverseRecOn with
        | nil => simp [lastAddr_of_ne_nil]
        | append_singleton A1 e =>
          have hne : e.1 ≠ q := fun he => by
            rw [hA, map_append, map_cons, nodup_append, nodup_cons] at hnd
            exact hnd.2.1.1 (by simp [← he])
          have hmid : A1 ++ [e] ≠ [] := by simp
          rw [← cons_append, ← append_assoc, lastAddr_of_ne_nil (by simp), lastAddr_singleton,
            if_neg (by simpa using hne), headAddr_of_ne_nil hmid]
  · intro q hq
    rw [map_append, mem_append, not_or] at hq
    have hqp : q ≠ p := fun he => hq.2 (by simp [he])
    rw [append_node hlast, if_neg hqp, h.unused q hq.1, Option.map_none]

end Chain

end Chains
