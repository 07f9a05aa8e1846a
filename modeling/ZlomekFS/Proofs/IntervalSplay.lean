import ZlomekFS.Proofs.SplayTree
import ZlomekFS.Spec.IntervalSplay

/-! The interval tree on the splay tree refines the interval tree as a list of nodes. For every sequence
of calls the nodes hold the offsets, and they do not touch if `interval_tree_sub` cuts no interval in two. -/

namespace ZFS
open Spans Trees List

namespace IntervalTreeDef

/-- The nodes of the tree in key order are the list, and they are counted. -/
structure Rep (t : IntervalTreeDef) (l : List Span) : Prop where
  nodes : inorder t.splay = l
  size : t.size = u32 l.length

/-! ## One operation on the splay tree -/

section Steps
variable {t : IntervalTreeDef} {l A B : List Span} {n : Span}

theorem Rep.lookup (h : t.Rep l) (hord : Ordered l) (key : ℕ) :
    ∃ splay, splayTreeLookup t.splay key = (splay, spanAt l key) ∧ { t with splay := splay }.Rep l := by
  obtain ⟨splay, heq, hs⟩ := splayTreeLookup_spec (h.nodes.symm ▸ hord) key
  rw [h.nodes] at heq hs
  exact ⟨splay, heq, hs, h.size⟩

theorem Rep.predecessor (h : t.Rep l) (hord : Ordered l) (key : ℕ) :
    ∃ splay, splayTreePredecessor t.splay key = (splay, (before l key).getLast?) ∧
      { t with splay := splay }.Rep l := by
  obtain ⟨splay, heq, hs⟩ := splayTreePredecessor_spec (h.nodes.symm ▸ hord) key
  rw [h.nodes] at heq hs
  exact ⟨splay, heq, hs, h.size⟩

theorem Rep.successor (h : t.Rep l) (hord : Ordered l) (key : ℕ) :
    ∃ splay, splayTreeSuccessor t.splay key = (splay, (after l key).head?) ∧ { t with splay := splay }.Rep l := by
  obtain ⟨splay, heq, hs⟩ := splayTreeSuccessor_spec (h.nodes.symm ▸ hord) key
  rw [h.nodes] at heq hs
  exact ⟨splay, heq, hs, h.size⟩

theorem Rep.assign (h : t.Rep (A ++ n :: B)) (hord : Ordered (A ++ n :: B)) (node : Span) :
    { t with splay := setNode t.splay n.start node }.Rep (A ++ node :: B) := by
  refine ⟨setNode_spec h.nodes (h.nodes.symm ▸ hord) node, ?_⟩
  rw [h.size, length_append, length_append]
  rfl

theorem Rep.insert (h : t.Rep l) (hord : Ordered l) (key : ℕ) (hnot : spanAt l key = none) (value : ℕ) :
    { t with splay := splayTreeInsert t.splay key value }.grow.Rep
      (before l key ++ (⟨key, value⟩ : Span) :: after l key) := by
  have hlen : l.length = (before l key).length + (after l key).length := by
    conv_lhs => rw [hord.split key, hnot]
    simp
  refine ⟨?_, ?_⟩
  · rw [← h.nodes]
    exact splayTreeInsert_spec (h.nodes.symm ▸ hord) key value
  · simp only [grow, h.size, hlen, u32, length_append, length_cons]
    omega

theorem Rep.remove (h : t.Rep (A ++ n :: B)) (hord : Ordered (A ++ n :: B)) :
    { t with splay := splayTreeDelete t.splay n.start }.shrink.Rep (A ++ B) := by
  refine ⟨?_, ?_⟩
  · have hdel := splayTreeDelete_spec (h.nodes.symm ▸ hord) n.start
    rwa [h.nodes, hord.parts_at.1, hord.parts_at.2.2] at hdel
  · simp only [shrink, h.size, u32, length_append, length_cons]
    omega

end Steps

/-! ## The loops -/

/-- The merging loop does to the nodes after `node` what `absorb` does. -/
theorem mergeSuccessors_rep {lo hi : List Span} {node : Span} {t : IntervalTreeDef} {fuel : ℕ}
    (hrep : t.Rep (lo ++ node :: hi)) (hord : Ordered (lo ++ node :: hi)) (hfuel : hi.length < fuel) :
    ∃ t', mergeSuccessors fuel t node = some t' ∧ t'.Rep (lo ++ absorb node hi) ∧ t'.deleted = t.deleted := by
  induction hi generalizing node t fuel with
  | nil =>
    obtain ⟨fuel, rfl⟩ := Nat.exists_eq_add_one_of_ne_zero (by omega : fuel ≠ 0)
    obtain ⟨splay, hsucc, hrep'⟩ := hrep.successor hord node.start
    rw [hord.parts_at.2.2] at hsucc
    exact ⟨{ t with splay := splay }, by rw [mergeSuccessors, hsucc]; rfl, hrep', rfl⟩
  | cons next hi ih =>
    obtain ⟨fuel, rfl⟩ := Nat.exists_eq_add_one_of_ne_zero (by omega : fuel ≠ 0)
    obtain ⟨splay, hsucc, hrep'⟩ := hrep.successor hord node.start
    rw [hord.parts_at.2.2, head?_cons] at hsucc
    rw [mergeSuccessors, hsucc, absorb]
    by_cases hreach : next.start ≤ node.stop
    · -- `next` leaves the tree, what it covered is in the merged node
      simp only [hreach, if_true]
      have hrep1 := hrep'.assign hord ⟨node.start, max node.stop next.stop⟩
      have hord1 : Ordered (lo ++ ⟨node.start, max node.stop next.stop⟩ :: next :: hi) := by
        rw [ordered_append_cons] at hord ⊢
        exact hord
      rw [append_cons] at hrep1 hord1
      have hrep2 := hrep1.remove hord1
      have hord2 := hord1.drop_mid
      rw [← append_cons] at hrep2 hord2
      obtain ⟨t', hrun, hres, hdel⟩ := ih hrep2 hord2 (by simpa using hfuel)
      rw [← max_def_lt]
      exact ⟨t', hrun, hres, hdel⟩
    · simp only [hreach, if_false]
      exact ⟨_, rfl, hrep', rfl⟩

/-- The deleting loop does to the nodes after `start` what `cut` does. -/
theorem deleteSuccessors_rep {lo hi : List Span} {start : ℕ} (stop : ℕ) {t : IntervalTreeDef} {fuel : ℕ}
    (hrep : t.Rep (lo ++ hi)) (hord : Ordered (lo ++ hi)) (hlo : ∀ a ∈ lo, a.start ≤ start)
    (hhi : ∀ b ∈ hi, start < b.start) (hfuel : hi.length < fuel) :
    ∃ t', deleteSuccessors start stop fuel t = some t' ∧ t'.Rep (lo ++ cut stop hi) ∧
      t'.deleted = (t.deleted || hi.head?.any (·.start < stop)) := by
  induction hi generalizing t fuel with
  | nil =>
    obtain ⟨fuel, rfl⟩ := Nat.exists_eq_add_one_of_ne_zero (by omega : fuel ≠ 0)
    obtain ⟨splay, hsucc, hrep'⟩ := hrep.successor hord start
    rw [after_append hlo hhi] at hsucc
    exact ⟨{ t with splay := splay }, by rw [deleteSuccessors, hsucc]; rfl, hrep', by simp⟩
  | cons next hi ih =>
    obtain ⟨fuel, rfl⟩ := Nat.exists_eq_add_one_of_ne_zero (by omega : fuel ≠ 0)
    obtain ⟨splay, hsucc, hrep'⟩ := hrep.successor hord start
    rw [after_append hlo hhi, head?_cons] at hsucc
    rw [deleteSuccessors, hsucc, cut]
    simp only [head?_cons, Option.any_some]
    by_cases hfar : stop ≤ next.start
    · rw [if_pos hfar, if_pos hfar]
      exact ⟨_, rfl, hrep', by simp [hfar]⟩
    · rw [if_neg hfar, if_neg hfar]
      by_cases hwhole : next.stop ≤ stop
      · rw [if_pos hwhole, if_pos hwhole]
        have hrep1 : { t with splay := splay, deleted := true }.Rep (lo ++ next :: hi) := ⟨hrep'.nodes, hrep'.size⟩
        obtain ⟨t', hrun, hres, hdel⟩ := ih (hrep1.remove hord) hord.drop_mid
          (fun b hb => hhi b (mem_cons_of_mem _ hb)) (by simpa using hfuel)
        exact ⟨t', hrun, hres, by simpa [not_le.mp hfar, shrink] using hdel⟩
      · rw [if_neg hwhole, if_neg hwhole]
        have hrep1 := hrep'.assign hord ⟨stop, next.stop⟩
        exact ⟨_, rfl, ⟨hrep1.nodes, hrep1.size⟩, by simp [not_le.mp hfar]⟩

/-! ## The operations on the interval tree -/

section Operations
variable {t : IntervalTreeDef} {l : List Span}

theorem Rep.fuel (h : t.Rep l) (key : ℕ) : (after l key).length < t.splay.numNodes + 1 := by
  rw [← length_inorder, h.nodes, Nat.lt_succ_iff]
  exact length_filter_le _ _

theorem Rep.merge {A B : List Span} {n : Span} (h : t.Rep (A ++ n :: B)) (hord : Ordered (A ++ n :: B))
    (node : Span) (hA : ∀ a ∈ A, a.start < node.start) (hB : ∀ b ∈ B, node.start < b.start) {fuel : ℕ}
    (hfuel : B.length < fuel) :
    ∃ t', mergeSuccessors fuel { t with splay := setNode t.splay n.start node } node = some t' ∧
      t'.Rep (A ++ absorb node B) ∧ t'.deleted = t.deleted := by
  have hord' : Ordered (A ++ node :: B) := by
    obtain ⟨h1, h2, -, -, h5⟩ := ordered_append_cons.mp hord
    exact ordered_append_cons.mpr ⟨h1, h2, hA, hB, h5⟩
  exact mergeSuccessors_rep (h.assign hord node) hord' hfuel

theorem insert_rep (h : t.Rep l) (hord : Ordered l) (start stop : ℕ) :
    ∃ t', t.insert start stop = some t' ∧ t'.Rep (insertNodes l start stop) ∧ t'.deleted = t.deleted := by
  have hfuel := h.fuel start
  have hsplit := hord.split start
  have hlo : ∀ a ∈ before l start, a.start < start := fun a ha => (mem_before.mp ha).2
  have hhi : ∀ b ∈ after l start, start < b.start := fun b hb => (mem_after.mp hb).2
  obtain ⟨splay, hlook, h₁⟩ := h.lookup hord start
  obtain ⟨splay2, hpred, h₂⟩ := h₁.predecessor hord start
  obtain ⟨splay3, hsucc, h3⟩ := h₂.successor hord start
  have hnew := h3.insert hord start
  unfold IntervalTreeDef.insert insertNodes
  simp only at hpred hsucc
  simp only [hlook]
  generalize before l start = lo at *
  generalize after l start = hi at *
  cases hat : spanAt l start with
  | some node =>
    obtain ⟨-, rfl⟩ := spanAt_some hat
    rw [hat, Option.toList_some, singleton_append] at hsplit
    simp only
    by_cases hbig : stop ≤ node.stop
    · rw [if_pos hbig, if_pos hbig]
      exact ⟨_, rfl, h₁, rfl⟩
    · rw [if_neg hbig, if_neg hbig]
      exact (hsplit ▸ h₁).merge (hsplit ▸ hord) ⟨node.start, stop⟩ hlo hhi hfuel
  | none =>
    rw [hat, Option.toList_none, nil_append] at hsplit
    simp only [hpred, hsucc]
    cases hprev : lo.getLast?.filter (start ≤ ·.stop) with
    | some prev =>
      obtain ⟨hlast, -⟩ := Option.filter_eq_some_iff.mp hprev
      have hlo' : lo = lo.dropLast ++ [prev] := (dropLast_append_getLast? prev hlast).symm
      have hl : l = lo.dropLast ++ prev :: hi := by
        rw [hsplit]
        conv_lhs => rw [hlo']
        simp
      obtain ⟨-, -, hA, hB, -⟩ := ordered_append_cons.mp (hl ▸ hord)
      simp only [← max_def_lt]
      exact (hl ▸ h3).merge (hl ▸ hord) ⟨prev.start, max prev.stop stop⟩ hA hB hfuel
    | none =>
      simp only
      cases hnext : hi.head?.filter (·.start ≤ stop) with
      | some next =>
        obtain ⟨hhead, -⟩ := Option.filter_eq_some_iff.mp hnext
        have hhi' : hi = next :: hi.tail := (cons_head?_tail hhead).symm
        have hl : l = lo ++ next :: hi.tail := by rw [hsplit, ← hhi']
        have hgt : start < next.start := hhi next (by rw [hhi']; simp)
        simp only [hgt, if_true, ← max_def_lt]
        refine (hl ▸ h3).merge (hl ▸ hord) ⟨start, max next.stop stop⟩ hlo ?_ ?_
        · exact fun b hb => hhi b (mem_of_mem_tail hb)
        · rw [length_tail]
          omega
      | none =>
        simp only
        exact mergeSuccessors_rep (hnew hat stop) ((hsplit ▸ hord).insert_mid hlo hhi) hfuel

theorem delete_rep (h : t.Rep l) (hsep : Parted l) {start stop : ℕ} (hle : start ≤ stop) :
    ∃ t', t.delete start stop = some t' ∧ t'.Rep (deleteNodes l start stop) ∧
      t'.deleted = (t.deleted || deletesNodes l start stop) := by
  have hord := hsep.ordered
  have hfuel := h.fuel start
  have hsplit := hord.split start
  have hlo : ∀ a ∈ before l start, a.start < start := fun a ha => (mem_before.mp ha).2
  have hhi : ∀ b ∈ after l start, start < b.start := fun b hb => (mem_after.mp hb).2
  obtain ⟨splay, hlook, h₁⟩ := h.lookup hord start
  obtain ⟨splay2, hpred, h₂⟩ := h₁.predecessor hord start
  unfold IntervalTreeDef.delete deleteNodes deletesNodes
  simp only at hpred
  simp only [hlook]
  generalize before l start = lo at *
  generalize after l start = hi at *
  cases hat : spanAt l start with
  | some node =>
    obtain ⟨-, rfl⟩ := spanAt_some hat
    rw [hat, Option.toList_some, singleton_append] at hsplit
    rw [hsplit] at h₁ hord
    simp only [Option.isSome_some, Bool.true_or, Bool.or_true]
    by_cases hbig : stop < node.stop
    · rw [if_pos hbig, if_pos hbig]
      have h₂ := h₁.assign hord ⟨stop, node.stop⟩
      exact ⟨_, rfl, ⟨h₂.nodes, h₂.size⟩, rfl⟩
    · rw [if_neg hbig, if_neg hbig]
      have h₂ : IntervalTreeDef.Rep { t with splay := splay, deleted := true } (lo ++ node :: hi) :=
        ⟨h₁.nodes, h₁.size⟩
      obtain ⟨t', hrun, hres, hdel⟩ := deleteSuccessors_rep stop (h₂.remove hord) hord.drop_mid
        (fun a ha => (hlo a ha).le) hhi hfuel
      exact ⟨t', hrun, hres, by simpa [shrink] using hdel⟩
  | none =>
    rw [hat, Option.toList_none, nil_append] at hsplit
    simp only [hpred, Option.isSome_none, Bool.false_or]
    cases hprev : lo.getLast?.filter (start < ·.stop) with
    | some prev =>
      obtain ⟨hlast, hin⟩ := Option.filter_eq_some_iff.mp hprev
      have hin : start < prev.stop := by simpa using hin
      have hlo' : lo = lo.dropLast ++ [prev] := (dropLast_append_getLast? prev hlast).symm
      have hl : l = lo.dropLast ++ prev :: hi := by
        rw [hsplit]
        conv_lhs => rw [hlo']
        simp
      have hps : prev.start < start := hlo prev (by rw [hlo']; simp)
      simp only [hlast, Option.any_some, hin, decide_true, Bool.true_or, Bool.or_true]
      by_cases hbig : stop < prev.stop
      · rw [if_pos hbig, if_pos hbig]
        -- the end of the range is inside `prev`, so no node starts there
        have hgap : ∀ b ∈ hi, prev.stop ≤ b.start := fun b hb =>
          (pairwise_cons.mp (pairwise_append.mp (hl ▸ hsep.gap)).2.1).1 b hb
        obtain ⟨hbef, hnot, haft⟩ := parts_of_append (A := lo) (m := none) (B := hi) (k := stop)
          (fun a ha => (hlo a ha).trans_le hle) (by simp) (fun b hb => hbig.trans_le (hgap b hb))
        rw [Option.toList_none, nil_append, ← hsplit] at hbef hnot haft
        have h3 := h₂.insert hord stop hnot prev.stop
        have hord3 : Ordered (lo ++ (⟨stop, prev.stop⟩ : Span) :: hi) :=
          (hsplit ▸ hord).insert_mid (fun a ha => (hlo a ha).trans_le hle) fun b hb => hbig.trans_le (hgap b hb)
        rw [hbef, haft] at h3
        rw [hlo', append_assoc, singleton_append] at h3 hord3
        have h4 := h3.assign hord3 ⟨prev.start, start⟩
        exact ⟨_, rfl, ⟨h4.nodes, h4.size⟩, rfl⟩
      · rw [if_neg hbig, if_neg hbig]
        have h3 := (hl ▸ h₂).assign (hl ▸ hord) ⟨prev.start, start⟩
        have hord3 : Ordered (lo.dropLast ++ (⟨prev.start, start⟩ : Span) :: hi) := by
          have := hl ▸ hord
          rw [ordered_append_cons] at this ⊢
          exact this
        rw [append_cons] at h3 hord3
        have hlo3 : ∀ a ∈ lo.dropLast ++ [(⟨prev.start, start⟩ : Span)], a.start ≤ start := fun a ha => by
          rcases mem_append.mp ha with ha | ha
          · exact (hlo a (dropLast_subset _ ha)).le
          · rw [mem_singleton.mp ha]
            exact hps.le
        obtain ⟨t', hrun, hres, hdel⟩ := deleteSuccessors_rep stop
          (t := { t with splay := setNode splay2 prev.start ⟨prev.start, start⟩, deleted := true })
          ⟨h3.nodes, h3.size⟩ hord3 hlo3 hhi hfuel
        rw [← append_cons] at hres
        exact ⟨t', hrun, hres, by simpa using hdel⟩
    | none =>
      have hout : lo.getLast?.any (start < ·.stop) = false := by
        cases hlast : lo.getLast? with
        | none => rfl
        | some prev =>
          rw [hlast] at hprev
          simpa using hprev
      rw [hout, Bool.false_or]
      exact deleteSuccessors_rep stop (hsplit ▸ h₂) (hsplit ▸ hord) (fun a ha => (hlo a ha).le) hhi hfuel

end Operations

/-! ## The interval tree as a list of nodes is refined -/

structure Refines (t : IntervalTreeDef) (l : IntervalTree) : Prop where
  rep : t.Rep l.nodes
  deleted : t.deleted = l.deleted

section Refines
variable {t t' : IntervalTreeDef} {l l' : IntervalTree}

theorem create_refines : create.Refines IntervalTree.create := ⟨⟨rfl, rfl⟩, rfl⟩

theorem Refines.empty (h : t.Refines l) : t.empty.Refines l.empty := by
  refine ⟨⟨rfl, rfl⟩, ?_⟩
  have hnil : t.splay = .nil ↔ l.nodes = [] := by rw [← h.rep.nodes, inorder_eq_nil]
  cases hl : l.nodes <;> simp [IntervalTreeDef.empty, IntervalTree.empty, h.deleted, hnil, hl]

theorem Refines.insert (h : t.Refines l) {start stop : ℕ} (hle : start ≤ stop) :
    ∃ t', t.insert start stop = some t' ∧ t'.Refines (l.insert start stop hle) := by
  obtain ⟨t', hrun, hrep, hdel⟩ := insert_rep h.rep l.separated.ordered start stop
  exact ⟨t', hrun, hrep, hdel.trans h.deleted⟩

theorem Refines.delete (h : t.Refines l) {start stop : ℕ} (hlt : start < stop) :
    ∃ t', t.delete start stop = some t' ∧ t'.Refines (l.delete start stop hlt) := by
  obtain ⟨t', hrun, hrep, hdel⟩ := delete_rep h.rep l.separated.parted hlt.le
  exact ⟨t', hrun, hrep, by rw [hdel, h.deleted]; rfl⟩

end Refines

/-! ## Trees whose nodes may touch -/

/-- Deleting an empty range where it does not cut an interval in two. -/
theorem deleteNodes_empty {l : List Span} (hsep : Separated l) {s : ℕ}
    (hcut : 0 < s → Covers l (s - 1) → ¬ Covers l s) :
    Separated (deleteNodes l s s) := by
  have hsplit := hsep.ordered.split s
  have hhi : ∀ b ∈ after l s, s < b.start := fun b hb => (mem_after.mp hb).2
  have hcutnil : cut s (after l s) = after l s := by
    cases hafter : after l s with
    | nil => rfl
    | cons next hi =>
      have := hhi next (by simp [hafter])
      rw [cut, if_pos this.le]
  unfold deleteNodes
  simp only [hcutnil]
  cases hat : spanAt l s with
  | some node =>
    obtain ⟨-, rfl⟩ := spanAt_some hat
    rw [hat, Option.toList_some, singleton_append] at hsplit
    simp only
    split_ifs with hbig
    · rw [← hsplit]
      exact hsep
    · -- the empty interval at `s` leaves the tree
      rw [hsplit] at hsep
      have hsub := (sublist_cons_self node (after l node.start)).append_left (before l node.start)
      exact ⟨fun a ha => hsep.le a (hsub.subset ha), hsep.gap.sublist hsub⟩
  | none =>
    rw [hat, Option.toList_none, nil_append] at hsplit
    simp only
    split
    · rename_i prev hprev
      obtain ⟨hlast, hin⟩ := Option.filter_eq_some_iff.mp hprev
      obtain ⟨-, hmem, hps, -⟩ := hsep.parted.before_last hlast
      have hin : s < prev.stop := by simpa using hin
      refine absurd ⟨prev, hmem, hps.le, hin⟩ (hcut (by omega) ⟨prev, hmem, ?_⟩)
      exact ⟨by omega, by omega⟩
    · rw [← hsplit]
      exact hsep

/-- No empty interval of the second list lies inside an interval of the first one. -/
def NoCut (l l' : List Span) : Prop :=
  ∀ m ∈ l', m.start = m.stop → 0 < m.start → Covers l (m.start - 1) → ¬ Covers l m.start

structure Nodes (t : IntervalTreeDef) (l : List Span) : Prop where
  rep : t.Rep l
  parted : Parted l

section Nodes
variable {t : IntervalTreeDef} {l nodes : List Span} {m : Span}

theorem Nodes.insert (h : t.Nodes l) (hle : m.start ≤ m.stop) :
    ∃ t' l', t.insert m.start m.stop = some t' ∧ t'.Nodes l' ∧ (∀ x, Covers l' x ↔ Covers l x ∨ m.Has x) ∧
      (Separated l → Separated l') := by
  obtain ⟨t', hrun, hrep, -⟩ := insert_rep h.rep h.parted.ordered m.start m.stop
  exact ⟨t', _, hrun, ⟨hrep, insertNodes_parted h.parted hle⟩, covers_insertNodes h.parted hle,
    fun hsep => (insertNodes_spec hsep hle).1⟩

theorem Nodes.delete (h : t.Nodes l) (hle : m.start ≤ m.stop) :
    ∃ t' l', t.delete m.start m.stop = some t' ∧ t'.Nodes l' ∧ (∀ x, Covers l' x ↔ Covers l x ∧ ¬ m.Has x) ∧
      (NoCut l [m] → Separated l → Separated l') := by
  obtain ⟨t', hrun, hrep, -⟩ := delete_rep h.rep h.parted hle
  refine ⟨t', _, hrun, ⟨hrep, deleteNodes_parted h.parted hle⟩, covers_deleteNodes h.parted hle, fun hcut hsep => ?_⟩
  rcases hle.lt_or_eq with hlt | heq
  · exact (deleteNodes_spec hsep hlt).1
  · rw [← heq]
    exact deleteNodes_empty hsep (hcut m (by simp) heq)

theorem Nodes.foreach_insert (h : t.Nodes l) (hle : ∀ m ∈ nodes, m.start ≤ m.stop) :
    ∃ t' l', foreachList (fun node t => (t.insert node.start node.stop).map (·, false)) nodes t = some (t', false) ∧
      t'.Nodes l' ∧ (∀ x, Covers l' x ↔ Covers l x ∨ Covers nodes x) ∧ (Separated l → Separated l') := by
  induction nodes generalizing t l with
  | nil => exact ⟨t, l, rfl, h, by simp, id⟩
  | cons m nodes ih =>
    obtain ⟨t1, l1, hrun, h₁, hcov1, hsep1⟩ := h.insert (hle m (by simp))
    obtain ⟨t', l', hrest, h', hcov', hsep'⟩ := ih h₁ fun m hm => hle m (mem_cons_of_mem _ hm)
    refine ⟨t', l', by simpa [foreachList, hrun] using hrest, h', fun x => ?_, hsep' ∘ hsep1⟩
    rw [hcov' x, hcov1 x, covers_cons, or_assoc]

theorem Nodes.foreach_delete (h : t.Nodes l) (hle : ∀ m ∈ nodes, m.start ≤ m.stop) :
    ∃ t' stop l',
      foreachList (fun node t => (t.delete node.start node.stop).map fun t => (t, decide (t.splay = .nil))) nodes t =
        some (t', stop) ∧ t'.Nodes l' ∧ (∀ x, Covers l' x ↔ Covers l x ∧ ¬ Covers nodes x) ∧
        (NoCut l nodes → Separated l → Separated l') := by
  induction nodes generalizing t l with
  | nil => exact ⟨t, false, l, rfl, h, by simp, fun _ => id⟩
  | cons m nodes ih =>
    obtain ⟨t1, l1, hrun, h₁, hcov1, hsep1⟩ := h.delete (hle m (by simp))
    have hfirst : NoCut l (m :: nodes) → NoCut l [m] := fun hcut a ha => hcut a (by simp_all)
    by_cases hnil : t1.splay = .nil
    · -- nothing is left to delete
      refine ⟨t1, true, l1, by simp [foreachList, hrun, hnil], h₁, fun x => ?_, hsep1 ∘ hfirst⟩
      have hempty : l1 = [] := by rw [← h₁.rep.nodes, hnil, inorder_nil]
      have := hcov1 x
      rw [covers_cons, not_or, ← and_assoc, ← this, hempty]
      simp
    · obtain ⟨t', stop, l', hrest, h', hcov', hsep'⟩ := ih h₁ fun m hm => hle m (mem_cons_of_mem _ hm)
      refine ⟨t', stop, l', by simpa [foreachList, hrun, hnil] using hrest, h', fun x => ?_, fun hcut hsep => ?_⟩
      · rw [hcov' x, hcov1 x, covers_cons, not_or, and_assoc]
      · refine hsep' (fun a ha heq hpos h1 h2 => ?_) (hsep1 (hfirst hcut) hsep)
        exact hcut a (mem_cons_of_mem _ ha) heq hpos ((hcov1 _).mp h1).1 ((hcov1 _).mp h2).1

end Nodes

end IntervalTreeDef

/-! ## Sequences of calls -/

/-- The calls made on a tree since it was created, the last one outside; a tree given to `interval_tree_add`
or `interval_tree_sub` was made by calls of its own. -/
inductive TreeCalls
  | create
  | insert (c : TreeCalls) (start stop : ℕ)
  | delete (c : TreeCalls) (start stop : ℕ)
  | add (c c' : TreeCalls)
  | sub (c c' : TreeCalls)
  | empty (c : TreeCalls)

namespace TreeCalls

def run : TreeCalls → Option IntervalTreeDef
  | create => some .create
  | insert c start stop => c.run.bind (·.insert start stop)
  | delete c start stop => c.run.bind (·.delete start stop)
  | add c c' => c.run.bind fun t => c'.run.bind t.add
  | sub c c' => c.run.bind fun t => c'.run.bind t.sub
  | empty c => c.run.map (·.empty)

def offsets : TreeCalls → Set ℕ
  | create => ∅
  | insert c start stop => c.offsets ∪ Set.Ico start stop
  | delete c start stop => c.offsets \ Set.Ico start stop
  | add c c' => c.offsets ∪ c'.offsets
  | sub c c' => c.offsets \ c'.offsets
  | empty _ => ∅

def Valid : TreeCalls → Prop
  | create => True
  | insert c start stop => c.Valid ∧ start ≤ stop
  | delete c start stop => c.Valid ∧ start < stop
  | add c c' | sub c c' => c.Valid ∧ c'.Valid
  | empty c => c.Valid

/-- `interval_tree_sub` never gets a tree with an empty interval that lies inside an interval of the other
tree. -/
def SubSafe : TreeCalls → Prop
  | create => True
  | insert c _ _ | delete c _ _ | empty c => c.SubSafe
  | add c c' => c.SubSafe ∧ c'.SubSafe
  | sub c c' => c.SubSafe ∧ c'.SubSafe ∧
      ∀ t ∈ c.run, ∀ t' ∈ c'.run, IntervalTreeDef.NoCut (inorder t.splay) (inorder t'.splay)

/-- The calls return, and the nodes of the tree do not overlap and hold the offsets. -/
theorem run_nodes (c : TreeCalls) (hv : c.Valid) :
    ∃ t l, c.run = some t ∧ t.Nodes l ∧ (∀ x, Covers l x ↔ x ∈ c.offsets) ∧ (c.SubSafe → Separated l) := by
  induction c with
  | create => exact ⟨.create, [], rfl, ⟨⟨rfl, rfl⟩, Parted.nil⟩, by simp [offsets], fun _ => IntervalTree.create.separated⟩
  | insert c start stop ih =>
    obtain ⟨t, l, hrun, h, hmem, hsep⟩ := ih hv.1
    obtain ⟨t', l', hrun', h', hcov, hsep'⟩ := h.insert (m := ⟨start, stop⟩) hv.2
    refine ⟨t', l', by simp [run, hrun, hrun'], h', fun x => ?_, hsep' ∘ hsep⟩
    rw [hcov x, hmem x]
    rfl
  | delete c start stop ih =>
    obtain ⟨t, l, hrun, h, hmem, hsep⟩ := ih hv.1
    obtain ⟨t', l', hrun', h', hcov, hsep'⟩ := h.delete (m := ⟨start, stop⟩) hv.2.le
    refine ⟨t', l', by simp [run, hrun, hrun'], h', fun x => ?_, fun hs => hsep' ?_ (hsep hs)⟩
    · rw [hcov x, hmem x]
      rfl
    · simp [IntervalTreeDef.NoCut, hv.2.ne]
  | add c c' ih ih' =>
    obtain ⟨t, l, hrun, h, hmem, hsep⟩ := ih hv.1
    obtain ⟨t', l', hrun', h', hmem', -⟩ := ih' hv.2
    obtain ⟨t'', l'', hfor, h'', hcov, hsep''⟩ := h.foreach_insert h'.parted.le
    refine ⟨t'', l'', ?_, h'', fun x => ?_, fun hs => hsep'' (hsep hs.1)⟩
    · simp [run, hrun, hrun', IntervalTreeDef.add, foreachInorder_eq, h'.rep.nodes, hfor]
    · rw [hcov x, hmem x, hmem' x]
      rfl
  | sub c c' ih ih' =>
    obtain ⟨t, l, hrun, h, hmem, hsep⟩ := ih hv.1
    obtain ⟨t', l', hrun', h', hmem', -⟩ := ih' hv.2
    obtain ⟨t'', stop, l'', hfor, h'', hcov, hsep''⟩ := h.foreach_delete h'.parted.le
    refine ⟨t'', l'', ?_, h'', fun x => ?_, fun hs => hsep'' ?_ (hsep hs.1)⟩
    · simp [run, hrun, hrun', IntervalTreeDef.sub, foreachInorder_eq, h'.rep.nodes, hfor]
    · rw [hcov x, hmem x, hmem' x]
      rfl
    · have hcut := hs.2.2 t hrun t' hrun'
      rwa [h.rep.nodes, h'.rep.nodes] at hcut
  | empty c ih =>
    obtain ⟨t, l, hrun, -⟩ := ih hv
    exact ⟨t.empty, [], by simp [run, hrun], ⟨⟨rfl, rfl⟩, Parted.nil⟩, by simp [offsets],
      fun _ => IntervalTree.create.separated⟩

end TreeCalls

/-- After any calls the nodes are in order and do not touch, the tree holds exactly the offsets it shall
hold, and up to the range of the counter the nodes are counted. -/
theorem treeCalls_separated (c : TreeCalls) (hv : c.Valid) (hs : c.SubSafe) :
    ∃ t, c.run = some t ∧ Separated (inorder t.splay) ∧ (∀ x, Covers (inorder t.splay) x ↔ x ∈ c.offsets) ∧
      ((inorder t.splay).length < 2 ^ 32 → t.size = (inorder t.splay).length) := by
  obtain ⟨t, l, hrun, h, hmem, hsep⟩ := c.run_nodes hv
  obtain rfl := h.rep.nodes
  exact ⟨t, hrun, hsep hs, hmem, fun hlen => h.rep.size.trans (Nat.mod_eq_of_lt hlen)⟩

/-- Two intervals, one of them shortened, and the tree of an empty file subtracted. -/
def sampleCalls : TreeCalls := (((TreeCalls.create.insert 0 4).insert 6 9).delete 2 7).sub (.insert .create 0 0)

theorem treeCalls_separated_sample :
    sampleCalls.run.map (fun t => (inorder t.splay, t.size)) = some ([⟨0, 2⟩, ⟨7, 9⟩], 2) ∧
      ∃ t, sampleCalls.run = some t ∧ Separated (inorder t.splay) ∧
        (∀ x, Covers (inorder t.splay) x ↔ x ∈ sampleCalls.offsets) ∧
        ((inorder t.splay).length < 2 ^ 32 → t.size = (inorder t.splay).length) := by
  refine ⟨by decide, treeCalls_separated sampleCalls (by simp [sampleCalls, TreeCalls.Valid]) ?_⟩
  refine ⟨trivial, trivial, fun t _ t' ht' m hm _ hpos => ?_⟩
  obtain rfl : (⟨.node ⟨0, 0⟩ .nil .nil, 1, false⟩ : IntervalTreeDef) = t' := Option.some.inj ht'
  obtain rfl : m = ⟨0, 0⟩ := by simpa using hm
  exact absurd hpos (by decide)

/-- An empty interval inside an interval cuts it into two that touch. -/
theorem treeCalls_sub_touching : let c := TreeCalls.sub (.insert .create 0 10) (.insert .create 5 5)
    c.Valid ∧ ∃ t, c.run = some t ∧ inorder t.splay = [⟨0, 5⟩, ⟨5, 10⟩] ∧ ¬ Separated (inorder t.splay) := by
  refine ⟨by simp [TreeCalls.Valid], _, rfl, rfl, fun h => ?_⟩
  exact absurd (pairwise_cons.mp h.gap).1 (by decide)

end ZFS
