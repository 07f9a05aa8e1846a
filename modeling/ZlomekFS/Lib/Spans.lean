import Mathlib.Tactic

/-! Sets of natural numbers kept as ordered lists of half-open spans. The list
operations below (merging the spans a new one reaches, cutting a low part off,
listing the gaps) are the ones an interval tree performs on its nodes in key
order; each comes with what it does to the covered set and to the order. -/

namespace Spans
open List

/-- The half-open span `[start, stop)`. -/
structure Span where
  start : ℕ
  stop : ℕ
  deriving DecidableEq, Repr

def Span.Has (s : Span) (x : ℕ) : Prop := s.start ≤ x ∧ x < s.stop

instance (s : Span) (x : ℕ) : Decidable (s.Has x) := inferInstanceAs (Decidable (_ ∧ _))

def Covers (l : List Span) (x : ℕ) : Prop := ∃ s ∈ l, s.Has x

instance (l : List Span) (x : ℕ) : Decidable (Covers l x) := decidableBEx _ l

@[simp] theorem not_covers_nil (x : ℕ) : ¬ Covers [] x := by simp [Covers]

@[simp] theorem covers_cons (s : Span) (l : List Span) (x : ℕ) :
    Covers (s :: l) x ↔ s.Has x ∨ Covers l x := by simp [Covers]

@[simp] theorem covers_append (l l' : List Span) (x : ℕ) : Covers (l ++ l') x ↔ Covers l x ∨ Covers l' x := by
  simp only [Covers, mem_append, or_and_right, exists_or]

/-- Spans in increasing order with a gap between any two. A span may be empty. -/
structure Separated (l : List Span) : Prop where
  le : ∀ s ∈ l, s.start ≤ s.stop
  gap : l.Pairwise (fun a b => a.stop < b.start)

theorem Separated.nil : Separated [] := ⟨by simp, Pairwise.nil⟩

variable {l A B hi : List Span}

theorem separated_cons {s : Span} :
    Separated (s :: l) ↔ s.start ≤ s.stop ∧ (∀ b ∈ l, s.stop < b.start) ∧ Separated l := by
  constructor
  · rintro ⟨hle, hgap⟩
    rw [pairwise_cons] at hgap
    exact ⟨hle s (by simp), hgap.1, fun b hb => hle b (by simp [hb]), hgap.2⟩
  · rintro ⟨hs, hb, hl⟩
    refine ⟨fun b hb => ?_, pairwise_cons.mpr ⟨hb, hl.gap⟩⟩
    rcases mem_cons.mp hb with rfl | hb
    · exact hs
    · exact hl.le b hb

theorem separated_append {l l' : List Span} :
    Separated (l ++ l') ↔ Separated l ∧ Separated l' ∧ ∀ a ∈ l, ∀ b ∈ l', a.stop < b.start := by
  constructor
  · rintro ⟨hle, hgap⟩
    rw [pairwise_append] at hgap
    exact ⟨⟨fun a ha => hle a (by simp [ha]), hgap.1⟩,
      ⟨fun b hb => hle b (by simp [hb]), hgap.2.1⟩, hgap.2.2⟩
  · rintro ⟨hl, hl', hx⟩
    refine ⟨fun s hs => ?_, pairwise_append.mpr ⟨hl.gap, hl'.gap, hx⟩⟩
    rcases mem_append.mp hs with h | h
    · exact hl.le s h
    · exact hl'.le s h

theorem pairwise_or {R : Span → Span → Prop} (h : l.Pairwise R) {a b : Span} (ha : a ∈ l)
    (hb : b ∈ l) (hne : a ≠ b) : R a b ∨ R b a := by
  obtain ⟨i, hi, rfl⟩ := getElem_of_mem ha
  obtain ⟨j, hj, rfl⟩ := getElem_of_mem hb
  have hij := pairwise_iff_getElem.mp h
  rcases lt_trichotomy i j with hlt | rfl | hlt
  · exact Or.inl (hij i j hi hj hlt)
  · exact absurd rfl hne
  · exact Or.inr (hij j i hj hi hlt)

/-! ## The part before a key, the span at it, the part after it -/

def before (l : List Span) (k : ℕ) : List Span := l.filter (fun s => s.start < k)

def after (l : List Span) (k : ℕ) : List Span := l.filter (fun s => k < s.start)

def spanAt (l : List Span) (k : ℕ) : Option Span := l.find? (fun s => s.start = k)

@[simp] theorem mem_before {l : List Span} {k : ℕ} {s : Span} :
    s ∈ before l k ↔ s ∈ l ∧ s.start < k := by simp [before]

@[simp] theorem mem_after {l : List Span} {k : ℕ} {s : Span} :
    s ∈ after l k ↔ s ∈ l ∧ k < s.start := by simp [after]

theorem spanAt_some {k : ℕ} {s : Span} (h : spanAt l k = some s) : s ∈ l ∧ s.start = k := by
  refine ⟨mem_of_find?_eq_some h, ?_⟩
  simpa using find?_some h

theorem spanAt_none {k : ℕ} (h : spanAt l k = none) : ∀ s ∈ l, s.start ≠ k := by
  intro s hs
  simpa using find?_eq_none.mp h s hs

theorem parts_of_append {m : Option Span} {k : ℕ} (hA : ∀ a ∈ A, a.start < k)
    (hm : ∀ s ∈ m, s.start = k) (hB : ∀ b ∈ B, k < b.start) :
    before (A ++ (m.toList ++ B)) k = A ∧ spanAt (A ++ (m.toList ++ B)) k = m ∧
      after (A ++ (m.toList ++ B)) k = B := by
  have hbA : before A k = A := filter_eq_self.mpr fun a ha => by simpa using hA a ha
  have hbB : before B k = [] := filter_eq_nil_iff.mpr fun b hb => by simpa using (hB b hb).le
  have haA : after A k = [] := filter_eq_nil_iff.mpr fun a ha => by simpa using (hA a ha).le
  have haB : after B k = B := filter_eq_self.mpr fun b hb => by simpa using hB b hb
  have hsA : spanAt A k = none := find?_eq_none.mpr fun a ha => by simpa using (hA a ha).ne
  have hsB : spanAt B k = none := find?_eq_none.mpr fun b hb => by simpa using (hB b hb).ne'
  unfold before after spanAt at *
  cases m with
  | none => simp [hbA, hbB, haA, haB, hsA, hsB]
  | some s => simp [hbA, hbB, haA, haB, hsA, hm s rfl]

def Ordered (l : List Span) : Prop := l.Pairwise fun a b => a.start < b.start

theorem ordered_append_cons {n : Span} :
    Ordered (A ++ n :: B) ↔
      Ordered A ∧ Ordered B ∧ (∀ a ∈ A, a.start < n.start) ∧ (∀ b ∈ B, n.start < b.start) ∧
        ∀ a ∈ A, ∀ b ∈ B, a.start < b.start := by
  unfold Ordered
  rw [pairwise_append, pairwise_cons]
  simp only [mem_cons, forall_eq_or_imp]
  constructor
  · rintro ⟨hA, ⟨hn, hB⟩, hAB⟩
    exact ⟨hA, hB, fun a ha => (hAB a ha).1, hn, fun a ha => (hAB a ha).2⟩
  · rintro ⟨hA, hB, hAn, hn, hAB⟩
    exact ⟨hA, ⟨hn, hB⟩, fun a ha => ⟨hAn a ha, hAB a ha⟩⟩

theorem Ordered.insert_mid (h : Ordered (A ++ B)) {n : Span} (hA : ∀ a ∈ A, a.start < n.start)
    (hB : ∀ b ∈ B, n.start < b.start) : Ordered (A ++ n :: B) := by
  obtain ⟨h1, h2, h3⟩ := pairwise_append.mp h
  exact ordered_append_cons.mpr ⟨h1, h2, hA, hB, h3⟩

theorem Ordered.drop_mid {n : Span} (h : Ordered (A ++ n :: B)) : Ordered (A ++ B) :=
  h.sublist ((sublist_cons_self n B).append_left A)

theorem Ordered.parts_at {n : Span} (h : Ordered (A ++ n :: B)) :
    before (A ++ n :: B) n.start = A ∧ spanAt (A ++ n :: B) n.start = some n ∧ after (A ++ n :: B) n.start = B := by
  obtain ⟨-, -, hA, hB, -⟩ := ordered_append_cons.mp h
  simpa using parts_of_append (m := some n) hA (by simp) hB

theorem after_append {k : ℕ} (hA : ∀ a ∈ A, a.start ≤ k) (hB : ∀ b ∈ B, k < b.start) : after (A ++ B) k = B := by
  unfold after
  rw [filter_append, filter_eq_nil_iff.mpr fun a ha => by simpa using hA a ha,
    filter_eq_self.mpr fun b hb => by simpa using hB b hb, nil_append]

theorem Separated.ordered (h : Separated l) : Ordered l :=
  h.gap.imp_of_mem fun {a _} ha _ hab => (h.le a ha).trans_lt hab

theorem Ordered.split (h : Ordered l) (k : ℕ) : l = before l k ++ ((spanAt l k).toList ++ after l k) := by
  induction l with
  | nil => rfl
  | cons s l ih =>
    obtain ⟨hsl, hl⟩ := pairwise_cons.mp h
    rcases lt_trichotomy s.start k with hk | hk | hk
    · have hb : before (s :: l) k = s :: before l k := by simp [before, hk]
      have ha : after (s :: l) k = after l k := by simp [after, hk.le]
      have hn : spanAt (s :: l) k = spanAt l k := by simp [spanAt, hk.ne]
      rw [hb, ha, hn, cons_append, ← ih hl]
    · obtain ⟨h1, h2, h3⟩ := parts_of_append (A := []) (m := some s) (B := l) (k := k) (by simp) (by simp [hk])
        (fun b hb => hk ▸ hsl b hb)
      simp only [nil_append, Option.toList_some, singleton_append] at h1 h2 h3
      rw [h1, h2, h3]
      rfl
    · obtain ⟨h1, h2, h3⟩ := parts_of_append (A := []) (m := none) (B := s :: l) (k := k) (by simp) (by simp)
        (fun b hb => by
          rcases mem_cons.mp hb with rfl | hb
          · exact hk
          · exact hk.trans (hsl b hb))
      simp only [nil_append, Option.toList_none] at h1 h2 h3
      rw [h1, h2, h3]
      rfl

theorem Separated.sublist {l l' : List Span} (h : Separated l) (hsub : l'.Sublist l) : Separated l' :=
  ⟨fun s hs => h.le s (hsub.subset hs), h.gap.sublist hsub⟩

theorem Separated.after (h : Separated l) (k : ℕ) : Separated (after l k) := h.sublist filter_sublist

theorem Ordered.covers_split (h : Ordered l) (k x : ℕ) :
    Covers l x ↔ Covers (Spans.before l k) x ∨ (∃ s, spanAt l k = some s ∧ s.Has x) ∨
      Covers (Spans.after l k) x := by
  conv_lhs => rw [h.split k]
  rw [covers_append, covers_append]
  cases spanAt l k <;> simp

/-! ## Spans that may touch -/

structure Parted (l : List Span) : Prop where
  le : ∀ s ∈ l, s.start ≤ s.stop
  ordered : Ordered l
  gap : l.Pairwise fun a b => a.stop ≤ b.start

theorem Separated.parted (h : Separated l) : Parted l :=
  ⟨h.le, h.ordered, h.gap.imp fun hab => hab.le⟩

theorem Ordered.rel_of_lt {R : Span → Span → Prop} (h : Ordered l) (hR : l.Pairwise R) {a b : Span}
    (ha : a ∈ l) (hb : b ∈ l) (hlt : a.start < b.start) : R a b := by
  have hne : a ≠ b := fun heq => absurd hlt (heq ▸ lt_irrefl _)
  rcases pairwise_or (Pairwise.and h hR) ha hb hne with hab | hba
  · exact hab.2
  · exact absurd hba.1 hlt.not_gt

namespace Parted

variable {l l' : List Span} {a b : Span}

theorem nil : Parted [] := Separated.nil.parted

section
variable (h : Parted l)

include h

theorem stop_le (ha : a ∈ l) (hb : b ∈ l) (hlt : a.start < b.start) : a.stop ≤ b.start :=
  h.ordered.rel_of_lt h.gap ha hb hlt

theorem sublist (hsub : l'.Sublist l) : Parted l' :=
  ⟨fun s hs => h.le s (hsub.subset hs), Pairwise.sublist hsub h.ordered, h.gap.sublist hsub⟩

/-- The last span before a key: all others before the key end before it starts. -/
theorem before_last {k : ℕ} {prev : Span} (hp : (before l k).getLast? = some prev) :
    before l k = (before l k).dropLast ++ [prev] ∧ prev ∈ l ∧ prev.start < k ∧
      ∀ a ∈ (before l k).dropLast, a.start < prev.start ∧ a.stop ≤ prev.start := by
  have heq : before l k = (before l k).dropLast ++ [prev] := (dropLast_append_getLast? prev hp).symm
  have hmem := mem_before.mp (mem_of_getLast? hp)
  refine ⟨heq, hmem.1, hmem.2, fun a ha => ?_⟩
  have hsub : Parted (before l k) := h.sublist filter_sublist
  have hord := hsub.ordered
  have hgap := hsub.gap
  rw [Ordered, heq, pairwise_append] at hord
  rw [heq, pairwise_append] at hgap
  exact ⟨hord.2.2 a ha prev (by simp), hgap.2.2 a ha prev (by simp)⟩

theorem before_stop_le {k : ℕ} (ha : a ∈ before l k) :
    ∃ prev, (before l k).getLast? = some prev ∧ a.stop ≤ prev.stop := by
  cases hp : (before l k).getLast? with
  | none => simp [getLast?_eq_none_iff.mp hp] at ha
  | some prev =>
    obtain ⟨heq, hmem, -, hlt⟩ := h.before_last hp
    rw [heq, mem_append, mem_singleton] at ha
    rcases ha with ha | rfl
    · exact ⟨prev, rfl, (hlt a ha).2.trans (h.le prev hmem)⟩
    · exact ⟨a, rfl, le_rfl⟩

theorem append (h' : Parted l') (hlt : ∀ a ∈ l, ∀ b ∈ l', a.start < b.start ∧ a.stop ≤ b.start) :
    Parted (l ++ l') := by
  refine ⟨fun s hs => ?_, pairwise_append.mpr ⟨h.ordered, h'.ordered, fun a ha b hb => (hlt a ha b hb).1⟩,
    pairwise_append.mpr ⟨h.gap, h'.gap, fun a ha b hb => (hlt a ha b hb).2⟩⟩
  rcases mem_append.mp hs with hs | hs
  · exact h.le s hs
  · exact h'.le s hs

theorem cons (ha : a.start ≤ a.stop) (hlt : ∀ b ∈ l, a.start < b.start ∧ a.stop ≤ b.start) :
    Parted (a :: l) := by
  have hone : Parted [a] := ⟨by simpa using ha, pairwise_singleton _ _, pairwise_singleton _ _⟩
  refine hone.append h fun c hc b hb => ?_
  rw [mem_singleton.mp hc]
  exact hlt b hb

end

end Parted

theorem Separated.before_lt (h : Separated l) {k : ℕ} {a b : Span} (ha : a ∈ before l k) (hb : b ∈ l)
    (hbk : k ≤ b.start) : a.stop < b.start := by
  obtain ⟨ha, hak⟩ := mem_before.mp ha
  exact h.ordered.rel_of_lt h.gap ha hb (hak.trans_le hbk)

theorem Separated.before_last (h : Separated l) {k : ℕ} {prev : Span} (hp : (before l k).getLast? = some prev) :
    ∀ a ∈ (before l k).dropLast, a.stop < prev.start := by
  obtain ⟨-, hmem, -, hlt⟩ := h.parted.before_last hp
  intro a ha
  exact h.ordered.rel_of_lt h.gap (mem_before.mp (dropLast_subset _ ha)).1 hmem (hlt a ha).1

theorem Ordered.takeWhile_eq (h : Ordered l) (k : ℕ) : l.takeWhile (·.start < k) = l.filter (·.start < k) := by
  induction l with
  | nil => rfl
  | cons a l ih =>
    obtain ⟨hlt, htail⟩ := pairwise_cons.mp h
    by_cases ha : a.start < k
    · rw [takeWhile_cons_of_pos (by simpa using ha), filter_cons_of_pos (by simpa using ha), ih htail]
    · rw [takeWhile_cons_of_neg (by simpa using ha), filter_cons_of_neg (by simpa using ha)]
      refine (filter_eq_nil_iff.mpr fun b hb => ?_).symm
      have := hlt b hb
      simp only [decide_eq_true_eq]
      omega

/-! ## The spans from a value on -/

/-- The spans from the one that holds the value, or else from the first after it. -/
def fromValue (l : List Span) (value : ℕ) : List Span :=
  match spanAt l value with
  | some s => s :: after l value
  | none => ((before l value).getLast?.filter (value < ·.stop)).toList ++ after l value

theorem Ordered.fromValue_suffix (h : Ordered l) (value : ℕ) : ∃ A, l = A ++ fromValue l value := by
  have hsplit := h.split value
  unfold fromValue
  cases hat : spanAt l value with
  | some s =>
    rw [hat] at hsplit
    exact ⟨_, hsplit⟩
  | none =>
    rw [hat, Option.toList_none, nil_append] at hsplit
    cases hlast : (before l value).getLast?.filter (value < ·.stop) with
    | none => exact ⟨_, hsplit⟩
    | some prev =>
      refine ⟨(before l value).dropLast, ?_⟩
      conv_lhs => rw [hsplit, ← dropLast_append_getLast? prev (Option.filter_eq_some_iff.mp hlast).1]
      simp

theorem Parted.fromValue_eq (h : Parted l) (value : ℕ) :
    fromValue l value = l.filter fun s => value ≤ s.start ∨ value < s.stop := by
  have hafter : (after l value).filter (fun s => value ≤ s.start ∨ value < s.stop) = after l value :=
    filter_eq_self.mpr fun s hs => by
      have := (mem_after.mp hs).2
      simp only [decide_eq_true_eq]
      omega
  have hdrop : ∀ lo : List Span, (∀ a ∈ lo, a.start < value ∧ a.stop ≤ value) →
      lo.filter (fun s => value ≤ s.start ∨ value < s.stop) = [] := fun lo hlo =>
    filter_eq_nil_iff.mpr fun s hs => by
      have := hlo s hs
      simp only [decide_eq_true_eq]
      omega
  conv_rhs => rw [h.ordered.split value]
  rw [filter_append, filter_append, hafter]
  unfold fromValue
  cases hat : spanAt l value with
  | some s =>
    obtain ⟨hmem, rfl⟩ := spanAt_some hat
    rw [hdrop (before l s.start) fun a ha => ?_]
    · simp
    · have ha' := mem_before.mp ha
      exact ⟨ha'.2, h.stop_le ha'.1 hmem ha'.2⟩
  | none =>
    cases hlast : (before l value).getLast? with
    | none => simp [getLast?_eq_none_iff.mp hlast]
    | some prev =>
      obtain ⟨heq, hmem, hpk, hlt⟩ := h.before_last hlast
      rw [heq, filter_append, hdrop _ fun a ha => ?_]
      · have hpk' : ¬ value ≤ prev.start := hpk.not_ge
        by_cases hin : value < prev.stop <;> simp [hin, hpk', Option.filter_some]
      · have := hlt a ha
        omega

/-! ## Merging into a span the later spans it reaches -/

def absorb (node : Span) : List Span → List Span
  | [] => [node]
  | next :: hi =>
    if next.start ≤ node.stop then absorb ⟨node.start, max node.stop next.stop⟩ hi
    else node :: next :: hi

theorem covers_absorb {node : Span} (hlt : ∀ b ∈ hi, node.start < b.start) (x : ℕ) :
    Covers (absorb node hi) x ↔ node.Has x ∨ Covers hi x := by
  induction hi generalizing node with
  | nil => simp [absorb]
  | cons next hi ih =>
    have hfirst := hlt next (by simp)
    unfold absorb
    split_ifs with hle
    · -- the merged span covers both since `next` starts inside `node` or right at its end
      rw [ih, covers_cons, ← or_assoc]
      · refine or_congr_left ?_
        simp only [Span.Has]
        omega
      · exact fun b hb => hlt b (by simp [hb])
    · rw [covers_cons]

theorem start_le_absorb {node : Span} (hlt : ∀ b ∈ hi, node.start < b.start) :
    ∀ b ∈ absorb node hi, node.start ≤ b.start := by
  induction hi generalizing node with
  | nil => simp [absorb]
  | cons next hi ih =>
    unfold absorb
    split_ifs with hle
    · exact ih fun b hb => hlt b (by simp [hb])
    · intro b hb
      rcases mem_cons.mp hb with rfl | hb
      · exact le_rfl
      · exact (hlt b hb).le

theorem Separated.absorb {node : Span} (hhi : Separated hi) (hn : node.start ≤ node.stop)
    (hlt : ∀ b ∈ hi, node.start < b.start) : Separated (Spans.absorb node hi) := by
  induction hi generalizing node with
  | nil => exact separated_cons.mpr ⟨hn, by simp, hhi⟩
  | cons next hi ih =>
    obtain ⟨hnext, hgap, hhi'⟩ := separated_cons.mp hhi
    unfold Spans.absorb
    split_ifs with hle
    · apply ih hhi'
      · simp only
        omega
      · exact fun b hb => hlt b (by simp [hb])
    · refine separated_cons.mpr ⟨hn, fun b hb => ?_, hhi⟩
      rcases mem_cons.mp hb with rfl | hb
      · omega
      · have := hgap b hb
        omega

theorem Parted.absorb {node : Span} (hhi : Parted hi) (hn : node.start ≤ node.stop)
    (hlt : ∀ b ∈ hi, node.start < b.start) : Parted (Spans.absorb node hi) := by
  induction hi generalizing node with
  | nil => exact Parted.nil.cons hn (by simp)
  | cons next hi ih =>
    have htail : Parted hi := hhi.sublist (sublist_cons_self ..)
    unfold Spans.absorb
    split_ifs with hle
    · apply ih htail
      · simp only
        omega
      · exact fun b hb => hlt b (by simp [hb])
    · refine hhi.cons hn fun b hb => ⟨hlt b hb, ?_⟩
      rcases mem_cons.mp hb with rfl | hb
      · omega
      · have := (pairwise_cons.mp hhi.ordered).1 b hb
        omega

/-! ## Cutting off what lies below a bound -/

def cut (bound : ℕ) : List Span → List Span
  | [] => []
  | next :: hi =>
    if bound ≤ next.start then next :: hi
    else if next.stop ≤ bound then cut bound hi
    else ⟨bound, next.stop⟩ :: hi

theorem Separated.covers_ge {k x : ℕ} (hk : ∀ b ∈ l, k ≤ b.start) (hx : Covers l x) : k ≤ x := by
  obtain ⟨b, hb, hbx⟩ := hx
  exact (hk b hb).trans hbx.1

theorem Separated.cut (hhi : Separated hi) (bound : ℕ) : Separated (Spans.cut bound hi) := by
  induction hi with
  | nil => exact hhi
  | cons next hi ih =>
    obtain ⟨hnext, hgap, hhi'⟩ := separated_cons.mp hhi
    unfold Spans.cut
    split_ifs with hb hs
    · exact hhi
    · exact ih hhi'
    · exact separated_cons.mpr ⟨by simp only; omega, hgap, hhi'⟩

theorem cut_lt (bound : ℕ) (hhi : ∀ s ∈ hi, s.start < s.stop) : ∀ s ∈ cut bound hi, s.start < s.stop := by
  induction hi with
  | nil => simp [cut]
  | cons next hi ih =>
    unfold cut
    split_ifs with hb hs
    · exact hhi
    · exact ih fun s hs => hhi s (by simp [hs])
    · intro s hs'
      rcases mem_cons.mp hs' with rfl | hs'
      · simpa using hs
      · exact hhi s (by simp [hs'])

theorem Parted.cut (hhi : Parted hi) (bound : ℕ) :
    Parted (Spans.cut bound hi) ∧ (∀ b ∈ Spans.cut bound hi, bound ≤ b.start) ∧
      ∀ x, bound ≤ x → (Covers (Spans.cut bound hi) x ↔ Covers hi x) := by
  induction hi with
  | nil => exact ⟨hhi, by simp [Spans.cut], by simp [Spans.cut]⟩
  | cons next hi ih =>
    have htail : Parted hi := hhi.sublist (sublist_cons_self ..)
    have hnext : ∀ b ∈ hi, next.start < b.start ∧ next.stop ≤ b.start := fun b hb =>
      ⟨(pairwise_cons.mp hhi.ordered).1 b hb, (pairwise_cons.mp hhi.gap).1 b hb⟩
    unfold Spans.cut
    split_ifs with hb hs
    · refine ⟨hhi, fun b hb' => ?_, fun _ _ => Iff.rfl⟩
      rcases mem_cons.mp hb' with rfl | hb'
      · exact hb
      · have := hnext b hb'
        omega
    · obtain ⟨happ, hge, hcov⟩ := ih htail
      refine ⟨happ, hge, fun x hx => ?_⟩
      rw [hcov x hx, covers_cons]
      simp only [Span.Has]
      have : ¬ x < next.stop := by omega
      tauto
    · have hge : ∀ b ∈ hi, bound < b.start := fun b hb' => by
        have := hnext b hb'
        omega
      refine ⟨htail.cons (by simp only; omega) fun b hb' => ⟨hge b hb', (hnext b hb').2⟩, ?_, fun x hx => ?_⟩
      · intro b hb'
        rcases mem_cons.mp hb' with rfl | hb'
        · exact le_rfl
        · exact (hge b hb').le
      · simp only [covers_cons, Span.Has]
        have : next.start ≤ x := by omega
        tauto

/-! ## Listing the gaps up to a bound -/

/-- The gaps from `last` on, as long as they start before `bound`; a gap that a span ends is
listed whole, also where that span starts after `bound`. -/
def gaps (bound last : ℕ) : List Span → List Span
  | [] => if last < bound then [⟨last, bound⟩] else []
  | node :: hi => if last < bound then ⟨last, node.start⟩ :: gaps bound node.stop hi else []

/-- The listed gaps lie outside the spans, and every uncovered value from `last` on and below
the bound is in one. -/
structure Gaps (bound last : ℕ) (hi out : List Span) : Prop where
  lt : ∀ b ∈ out, b.start < b.stop
  last_le : ∀ b ∈ out, last ≤ b.start
  lt_bound : ∀ b ∈ out, b.start < bound
  ordered : out.Pairwise (fun a b => a.stop ≤ b.start)
  not_covers : ∀ x, Covers out x → ¬ Covers hi x
  covers : ∀ x, last ≤ x → x < bound → ¬ Covers hi x → Covers out x
  overhang : ∀ b ∈ out, b.stop ≤ bound ∨ ∃ c ∈ hi, b.stop = c.start

theorem gaps_spec (bound last : ℕ) (hhi : Separated hi)
    (hlast : ∀ b ∈ hi, last < b.start) : Gaps bound last hi (gaps bound last hi) := by
  induction hi generalizing last with
  | nil =>
    unfold gaps
    split_ifs with h
    · constructor <;> simp [Span.Has] <;> omega
    · constructor <;> simp
      omega
  | cons node hi ih =>
    obtain ⟨hnode, hgap, hhi'⟩ := separated_cons.mp hhi
    have hfirst := hlast node (by simp)
    have h := ih node.stop hhi' hgap
    unfold gaps
    split_ifs with hb
    · refine ⟨?_, ?_, ?_, ?_, ?_, ?_, ?_⟩
      · intro b hb'
        rcases mem_cons.mp hb' with rfl | hb'
        · exact hfirst
        · exact h.lt b hb'
      · intro b hb'
        rcases mem_cons.mp hb' with rfl | hb'
        · exact le_rfl
        · have := h.last_le b hb'
          omega
      · intro b hb'
        rcases mem_cons.mp hb' with rfl | hb'
        · exact hb
        · exact h.lt_bound b hb'
      · refine pairwise_cons.mpr ⟨fun b hb' => ?_, h.ordered⟩
        have := h.last_le b hb'
        simp only
        omega
      · intro x hx hc
        rcases (covers_cons _ _ _).mp hx with hx | hx <;> rcases (covers_cons _ _ _).mp hc with hc | hc
        · simp only [Span.Has] at hx hc
          omega
        · have := Separated.covers_ge (fun b hb' => (hgap b hb').le) hc
          simp only [Span.Has] at hx
          omega
        · have := Separated.covers_ge h.last_le hx
          simp only [Span.Has] at hc
          omega
        · exact h.not_covers x hx hc
      · intro x hx hxb hc
        rw [covers_cons, not_or] at hc
        rw [covers_cons]
        simp only [Span.Has] at hc ⊢
        by_cases hlt : x < node.start
        · exact Or.inl ⟨hx, hlt⟩
        · exact Or.inr (h.covers x (by omega) hxb hc.2)
      · intro b hb'
        rcases mem_cons.mp hb' with rfl | hb'
        · exact Or.inr ⟨node, by simp⟩
        · rcases h.overhang b hb' with ho | ⟨c, hc, ho⟩
          · exact Or.inl ho
          · exact Or.inr ⟨c, by simp [hc], ho⟩
    · constructor <;> simp
      omega

end Spans
