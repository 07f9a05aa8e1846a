import ZlomekFS.Proofs.IntervalSplay
import ZlomekFS.Proofs.IntervalTree

/-! The parts of ranges outside an interval tree. The loop lists each gap up to the next node, so a range
that ends inside a gap gets a part that is too long. -/

namespace ZFS
open Spans Trees List

/-! ## The walk through the splay tree -/

namespace IntervalTreeDef

theorem complementLoop_rep {lo hi : List Span} {fuel : ℕ} (stop last : ℕ) (dest : List Span) {t : IntervalTreeDef}
    (hrep : t.Rep (lo ++ hi)) (hord : Ordered (lo ++ hi)) (hfuel : hi.length < fuel) :
    ∃ t', complementLoop stop fuel t last hi.head? dest = some (t', dest ++ gaps stop last hi) ∧
      t'.Rep (lo ++ hi) ∧ t'.deleted = t.deleted := by
  induction hi generalizing lo last fuel dest t with
  | nil =>
    obtain ⟨fuel, rfl⟩ := Nat.exists_eq_add_one_of_ne_zero (by omega : fuel ≠ 0)
    simp only [head?_nil, complementLoop, gaps]
    split_ifs with hlast
    · exact ⟨t, rfl, hrep, rfl⟩
    · exact ⟨t, by simp, hrep, rfl⟩
  | cons node hi ih =>
    obtain ⟨fuel, rfl⟩ := Nat.exists_eq_add_one_of_ne_zero (by omega : fuel ≠ 0)
    obtain ⟨splay, hsucc, hrep'⟩ := hrep.successor hord node.start
    rw [hord.parts_at.2.2] at hsucc
    simp only [head?_cons, complementLoop, gaps, hsucc]
    split_ifs with hlast
    · rw [append_cons] at hrep' hord
      obtain ⟨t', hrun, hres, hdel⟩ := ih node.stop (dest ++ [⟨last, node.start⟩]) hrep' hord (by simpa using hfuel)
      rw [← append_cons] at hres
      exact ⟨t', by simpa using hrun, hres, hdel⟩
    · exact ⟨t, by simp, hrep, rfl⟩

theorem Refines.complement1 {t : IntervalTreeDef} {l : IntervalTree} (h : t.Refines l) (start stop : ℕ)
    (dest : List Span) :
    ∃ t', t.complement1 start stop dest = some (t', dest ++ l.complement start stop) ∧ t'.Refines l := by
  have hord := l.separated.ordered
  have hfuel := h.rep.fuel start
  obtain ⟨splay, hlook, h1⟩ := h.rep.lookup hord start
  -- from any splayed form of the tree on, the loop is the same walk
  have hwalk : ∀ splay last, { t with splay := splay }.Rep l.nodes →
      ∃ t', complementLoop stop (t.splay.numNodes + 1)
          { t with splay := (splayTreeSuccessor splay start).1 } last (splayTreeSuccessor splay start).2 dest =
            some (t', dest ++ gaps stop last (after l.nodes start)) ∧ t'.Refines l := by
    intro splay last h'
    obtain ⟨splay', hsucc, h''⟩ := h'.successor hord start
    have hsplit := hord.split start
    rw [← append_assoc] at hsplit
    simp only at hsucc
    rw [hsucc]
    obtain ⟨t', hrun, hrep, hdel⟩ := complementLoop_rep stop last dest (hsplit ▸ h'') (hsplit ▸ hord) hfuel
    exact ⟨t', hrun, hsplit ▸ hrep, hdel.trans h.deleted⟩
  unfold IntervalTreeDef.complement1 IntervalTree.complement
  simp only [hlook]
  cases spanAt l.nodes start with
  | some node => exact hwalk splay node.stop h1
  | none =>
    obtain ⟨splay2, hpred, h2⟩ := h1.predecessor hord start
    simp only at hpred
    simp only [hpred]
    exact hwalk splay2 _ h2

theorem Refines.complementVarray {t : IntervalTreeDef} {l : IntervalTree} (h : t.Refines l) (src dest : List Span) :
    ∃ t', t.complementVarray src dest = some (t', dest ++ l.complementVarray src) ∧ t'.Refines l := by
  induction src generalizing t dest with
  | nil => exact ⟨t, by simp [IntervalTreeDef.complementVarray, IntervalTree.complementVarray], h⟩
  | cons x src ih =>
    obtain ⟨t1, hrun, h1⟩ := h.complement1 x.start x.stop dest
    obtain ⟨t', hrest, h'⟩ := ih h1 (dest ++ l.complement x.start x.stop)
    refine ⟨t', ?_, h'⟩
    rw [IntervalTreeDef.complementVarray, hrun, Option.bind_some]
    show t1.complementVarray src _ = _
    rw [hrest, IntervalTree.complementVarray, IntervalTree.complementVarray, flatMap_cons, append_assoc]

end IntervalTreeDef

/-! ## The parts of a range -/

structure IsParts (nodes src out : List Span) : Prop where
  lt : ∀ b ∈ out, b.start < b.stop
  ordered : out.Pairwise (fun a b => a.stop ≤ b.start)
  inside : ∀ b ∈ out, ∃ r ∈ src, r.start ≤ b.start ∧ b.stop ≤ r.stop
  covers : ∀ x, Covers out x ↔ Covers src x ∧ ¬ Covers nodes x

/-- The range ends in a gap with a node after it, and no node starts at its end. -/
def Overhangs (nodes : List Span) (r : Span) : Prop :=
  r.start < r.stop ∧ ¬ Covers nodes (r.stop - 1) ∧ (∃ c ∈ nodes, r.stop < c.start) ∧ ∀ c ∈ nodes, c.start ≠ r.stop

theorem gaps_no_start {bound last : ℕ} {hi : List Span} (hhi : Separated hi) {b c : Span}
    (hb : b ∈ gaps bound last hi) (hc : c ∈ hi) (hbc : b.start < c.start) : b.stop ≤ c.start := by
  induction hi generalizing last with
  | nil => simp at hc
  | cons node hi ih =>
    obtain ⟨hnode, hgap, hhi'⟩ := separated_cons.mp hhi
    rw [gaps] at hb
    split_ifs at hb with hlt
    · rcases mem_cons.mp hb with rfl | hb <;> rcases mem_cons.mp hc with rfl | hc
      · exact le_rfl
      · have := hgap c hc
        simp only
        omega
      · have := (gaps_spec bound c.stop hhi' hgap).last_le b hb
        omega
      · exact ih hhi' hb hc
    · simp at hb

/-- A gap ends where a node starts, or at the bound with all nodes before it. -/
theorem gaps_end {bound last : ℕ} {hi : List Span} (hhi : Separated hi) {b : Span} (hb : b ∈ gaps bound last hi) :
    (∃ c ∈ hi, b.stop = c.start) ∨ b.stop = bound ∧ ∀ c ∈ hi, c.start < bound := by
  induction hi generalizing last with
  | nil =>
    rw [gaps] at hb
    split_ifs at hb with hlt
    · rw [mem_singleton.mp hb]
      simp
    · simp at hb
  | cons node hi ih =>
    obtain ⟨hnode, hgap, hhi'⟩ := separated_cons.mp hhi
    rw [gaps] at hb
    split_ifs at hb with hlt
    · rcases mem_cons.mp hb with rfl | hb
      · exact Or.inl ⟨node, by simp, rfl⟩
      · rcases ih hhi' hb with ⟨c, hc, heq⟩ | ⟨heq, hbound⟩
        · exact Or.inl ⟨c, by simp [hc], heq⟩
        · refine Or.inr ⟨heq, fun c hc => ?_⟩
          rcases mem_cons.mp hc with rfl | hc
          · have hg := gaps_spec bound c.stop hhi' hgap
            have := hg.last_le b hb
            have := hg.lt_bound b hb
            omega
          · exact hbound c hc
    · simp at hb

namespace IntervalTree
variable {t : IntervalTree} {r b : Span}

/-- A part that is too long comes from a range that ends in a gap before a node. -/
theorem overhangs_of_complement (hb : b ∈ t.complement r.start r.stop) (hlong : r.stop < b.stop) :
    Overhangs t.nodes r := by
  have hspec := t.complement_spec r.start r.stop
  have hstart := hspec.start_le b hb
  have hlt := hspec.lt_stop b hb
  refine ⟨by omega, hspec.not_mem _ ⟨b, hb, by omega, by omega⟩, ?_, fun c hc heq => ?_⟩
  · rcases hspec.overhang b hb with h | ⟨c, hc, h⟩
    · omega
    · exact ⟨c, hc, by omega⟩
  · have hc' : c ∈ after t.nodes r.start := mem_after.mpr ⟨hc, by omega⟩
    have := gaps_no_start (t.separated.after r.start) hb hc' (by omega)
    omega

/-- A range that ends in a gap before a node gets a part that is too long. -/
theorem complement_of_overhangs (h : Overhangs t.nodes r) : ∃ b ∈ t.complement r.start r.stop, r.stop < b.stop := by
  obtain ⟨hlt, hgap, ⟨c, hc, hstart⟩, hnot⟩ := h
  obtain ⟨b, hb, hb1, hb2⟩ := (t.complement_spec r.start r.stop).covers (r.stop - 1) (by omega) (by omega) hgap
  refine ⟨b, hb, ?_⟩
  rcases gaps_end (t.separated.after r.start) hb with ⟨n, hn, heq⟩ | ⟨-, hbound⟩
  · have := hnot n (mem_after.mp hn).1
    omega
  · have := hbound c (mem_after.mpr ⟨hc, by omega⟩)
    omega

/-- Without overhang the parts of a range are exactly what is outside the tree. -/
theorem complement_parts (h : ¬ Overhangs t.nodes r) : IsParts t.nodes [r] (t.complement r.start r.stop) := by
  have hspec := t.complement_spec r.start r.stop
  have hstop : ∀ b ∈ t.complement r.start r.stop, b.stop ≤ r.stop := fun b hb => by
    by_contra hlong
    exact h (overhangs_of_complement hb (by omega))
  refine ⟨hspec.lt, hspec.ordered, fun b hb => ⟨r, by simp, hspec.start_le b hb, hstop b hb⟩, fun x => ?_⟩
  constructor
  · rintro ⟨b, hb, hx⟩
    have := hspec.start_le b hb
    have := hstop b hb
    refine ⟨⟨r, by simp, ?_⟩, hspec.not_mem x ⟨b, hb, hx⟩⟩
    simp only [Span.Has] at hx ⊢
    omega
  · rintro ⟨⟨r', hr', hx⟩, hnot⟩
    obtain rfl := mem_singleton.mp hr'
    exact hspec.covers x hx.1 hx.2 hnot

end IntervalTree

theorem IsParts.flatMap {nodes src : List Span} {f : Span → List Span}
    (hsorted : src.Pairwise (fun a b => a.stop ≤ b.start)) (h : ∀ r ∈ src, IsParts nodes [r] (f r)) :
    IsParts nodes src (src.flatMap f) := by
  have hin : ∀ r ∈ src, ∀ b ∈ f r, r.start ≤ b.start ∧ b.stop ≤ r.stop := fun r hr b hb => by
    simpa using (h r hr).inside b hb
  refine ⟨fun b hb => ?_, ?_, fun b hb => ?_, fun x => ?_⟩
  · obtain ⟨r, hr, hb⟩ := mem_flatMap.mp hb
    exact (h r hr).lt b hb
  · rw [pairwise_flatMap]
    refine ⟨fun r hr => (h r hr).ordered, hsorted.imp_of_mem fun {r r'} hr hr' hle b hb b' hb' => ?_⟩
    have := hin r hr b hb
    have := hin r' hr' b' hb'
    omega
  · obtain ⟨r, hr, hb⟩ := mem_flatMap.mp hb
    exact ⟨r, hr, hin r hr b hb⟩
  · constructor
    · rintro ⟨b, hb, hx⟩
      obtain ⟨r, hr, hb⟩ := mem_flatMap.mp hb
      obtain ⟨hrx, hnot⟩ := ((h r hr).covers x).mp ⟨b, hb, hx⟩
      exact ⟨⟨r, hr, by simpa [Covers] using hrx⟩, hnot⟩
    · rintro ⟨⟨r, hr, hx⟩, hnot⟩
      obtain ⟨b, hb, hbx⟩ := ((h r hr).covers x).mpr ⟨⟨r, by simp, hx⟩, hnot⟩
      exact ⟨b, mem_flatMap.mpr ⟨r, hr, hb⟩, hbx⟩

theorem complementVarray_parts_iff (t : IntervalTree) {src : List Span}
    (hsorted : src.Pairwise (fun a b => a.stop ≤ b.start)) :
    IsParts t.nodes src (t.complementVarray src) ↔ ∀ r ∈ src, ¬ Overhangs t.nodes r := by
  constructor
  · intro h r hr hover
    obtain ⟨b, hb, hlong⟩ := IntervalTree.complement_of_overhangs hover
    have hspec := t.complement_spec r.start r.stop
    obtain ⟨r', hr', hstart, hstop⟩ := h.inside b (mem_flatMap.mpr ⟨r, hr, hb⟩)
    have := hspec.start_le b hb
    have := hspec.lt_stop b hb
    have := hspec.lt b hb
    -- the range the part lies in is another one, and yet the two share the start of the part
    have hne : r ≠ r' := fun he => by rw [← he] at hstop; omega
    have := pairwise_or hsorted hr hr' hne
    omega
  · exact fun h => IsParts.flatMap hsorted fun r hr => IntervalTree.complement_parts (h r hr)

/-- For a well-formed tree the complement of a range, and that of a sorted list of disjoint ranges, is the
list of the parts outside the tree exactly when no range ends in a gap with a node after it. -/
theorem complement_iff (t : IntervalTreeDef) (l : IntervalTree) (h : t.Refines l) :
    (∀ start stop, start < stop → ∃ t' out, t.complement start stop = some (t', out) ∧ t'.Refines l ∧
      (IsParts (inorder t.splay) [⟨start, stop⟩] out ↔ ¬ Overhangs (inorder t.splay) ⟨start, stop⟩)) ∧
    ∀ src : List Span, (∀ r ∈ src, r.start ≤ r.stop) → src.Pairwise (fun a b => a.stop ≤ b.start) →
      ∃ t' out, t.complementVarray src [] = some (t', out) ∧ t'.Refines l ∧
        (IsParts (inorder t.splay) src out ↔ ∀ r ∈ src, ¬ Overhangs (inorder t.splay) r) := by
  rw [h.rep.nodes]
  constructor
  · intro start stop _
    obtain ⟨t', hrun, h'⟩ := h.complement1 start stop []
    refine ⟨t', l.complement start stop, hrun, h', ?_⟩
    have hone := complementVarray_parts_iff l (pairwise_singleton _ ⟨start, stop⟩)
    simpa [IntervalTree.complementVarray] using hone
  · intro src _ hsorted
    obtain ⟨t', hrun, h'⟩ := h.complementVarray src []
    exact ⟨t', l.complementVarray src, hrun, h', complementVarray_parts_iff l hsorted⟩

/-- The tree with the one node `[10, 20)`. -/
def oneNode : IntervalTreeDef := ⟨.node ⟨10, 20⟩ .nil .nil, 1, false⟩

theorem oneNode_refines : oneNode.Refines (IntervalTree.create.insert 10 20 (by decide)) :=
  ⟨⟨rfl, rfl⟩, rfl⟩

theorem complement_iff_oneNode :
    ∃ t' out, oneNode.complement 5 30 = some (t', out) ∧ IsParts (inorder oneNode.splay) [⟨5, 30⟩] out := by
  obtain ⟨t', out, hrun, -, hiff⟩ := (complement_iff oneNode _ oneNode_refines).1 5 30 (by decide)
  refine ⟨t', out, hrun, hiff.mpr ?_⟩
  rintro ⟨-, -, ⟨c, hc, hlt⟩, -⟩
  obtain rfl : c = ⟨10, 20⟩ := by simpa [oneNode] using hc
  exact absurd hlt (by decide)

/-- The part of `[0, 5)` outside the tree is listed up to the next node. -/
theorem complement_too_long :
    oneNode.complement 0 5 = some (oneNode, [⟨0, 10⟩]) ∧ ¬ IsParts (inorder oneNode.splay) [⟨0, 5⟩] [⟨0, 10⟩] := by
  refine ⟨rfl, fun h => ?_⟩
  obtain ⟨r, hr, -, hstop⟩ := h.inside ⟨0, 10⟩ (by simp)
  obtain rfl := mem_singleton.mp hr
  exact absurd hstop (by decide)

end ZFS
