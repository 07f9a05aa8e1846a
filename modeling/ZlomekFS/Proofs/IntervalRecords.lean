import ZlomekFS.Proofs.IntervalSplay
import ZlomekFS.Proofs.IntervalTree
import ZlomekFS.Spec.IntervalFile

/-! The interval tree in memory and the records of an interval file: inserting and deleting keep the ends
of the intervals in range and add at most one node, a tree is written as its nodes in order, and reading
inserts the records one after another. -/

namespace ZFS
open Spans Trees Bytes List

/-! ## The nodes of a tree: their ends and their number -/

section Nodes
variable {l : List Span} {bound : ℕ}

theorem absorb_small (node : Span) {hi : List Span} (hn : node.stop ≤ bound) (hhi : ∀ s ∈ hi, s.stop ≤ bound) :
    (∀ s ∈ absorb node hi, s.stop ≤ bound) ∧ (absorb node hi).length ≤ hi.length + 1 := by
  induction hi generalizing node with
  | nil => exact ⟨by simpa [absorb] using hn, le_rfl⟩
  | cons next hi ih =>
    rw [forall_mem_cons] at hhi
    unfold absorb
    split_ifs
    · obtain ⟨hstop, hlen⟩ := ih ⟨node.start, max node.stop next.stop⟩ (max_le hn hhi.1) hhi.2
      exact ⟨hstop, hlen.trans (Nat.le_succ _)⟩
    · exact ⟨forall_mem_cons.mpr ⟨hn, forall_mem_cons.mpr hhi⟩, le_rfl⟩

theorem cut_small (start : ℕ) {hi : List Span} (hhi : ∀ s ∈ hi, s.stop ≤ bound) :
    (∀ s ∈ cut start hi, s.stop ≤ bound) ∧ (cut start hi).length ≤ hi.length := by
  induction hi with
  | nil => exact ⟨hhi, le_rfl⟩
  | cons next hi ih =>
    have hhi' := forall_mem_cons.mp hhi
    unfold cut
    split_ifs
    · exact ⟨hhi, le_rfl⟩
    · obtain ⟨hstop, hlen⟩ := ih hhi'.2
      exact ⟨hstop, hlen.trans (Nat.le_succ _)⟩
    · exact ⟨forall_mem_cons.mpr hhi', le_rfl⟩

theorem before_append_after (hord : Ordered l) (k : ℕ) : (before l k ++ after l k).Sublist l := by
  conv_rhs => rw [hord.split k]
  exact (sublist_append_right _ _).append_left _

theorem glue_absorb_small {lo hi : List Span} {node : Span} (hsub : (lo ++ hi).Sublist l)
    (hl : ∀ s ∈ l, s.stop ≤ bound) (hn : node.stop ≤ bound) :
    (∀ s ∈ lo ++ absorb node hi, s.stop ≤ bound) ∧ (lo ++ absorb node hi).length ≤ l.length + 1 := by
  have hmem : ∀ s ∈ lo ++ hi, s.stop ≤ bound := fun s hs => hl s (hsub.subset hs)
  rw [forall_mem_append] at hmem
  obtain ⟨hstop, hlen⟩ := absorb_small node hn hmem.2
  have := hsub.length_le
  rw [length_append] at this ⊢
  exact ⟨forall_mem_append.mpr ⟨hmem.1, hstop⟩, by omega⟩

theorem insertNodes_small (hord : Ordered l) (start : ℕ) {stop : ℕ} (hl : ∀ s ∈ l, s.stop ≤ bound) (hstop : stop ≤ bound) :
    (∀ s ∈ insertNodes l start stop, s.stop ≤ bound) ∧ (insertNodes l start stop).length ≤ l.length + 1 := by
  have hsub := before_append_after hord start
  unfold insertNodes
  cases hat : spanAt l start with
  | some node =>
    dsimp only
    split_ifs
    · exact ⟨hl, Nat.le_succ _⟩
    · exact glue_absorb_small hsub hl hstop
  | none =>
    dsimp only
    cases hp : (before l start).getLast?.filter (start ≤ ·.stop) with
    | some prev =>
      have hprev : prev ∈ before l start := mem_of_getLast? (Option.filter_eq_some_iff.mp hp).1
      exact glue_absorb_small (((dropLast_sublist _).append_right _).trans hsub) hl
        (max_le (hl prev (mem_before.mp hprev).1) hstop)
    | none =>
      dsimp only
      cases hn : (after l start).head?.filter (·.start ≤ stop) with
      | some next =>
        have hnext : next ∈ after l start := mem_of_mem_head? (Option.filter_eq_some_iff.mp hn).1
        exact glue_absorb_small (((tail_sublist _).append_left _).trans hsub) hl
          (max_le (hl next (mem_after.mp hnext).1) hstop)
      | none => exact glue_absorb_small hsub hl hstop

theorem absorb_ne_nil (node : Span) (hi : List Span) : absorb node hi ≠ [] := by
  induction hi generalizing node with
  | nil => simp [absorb]
  | cons next hi ih =>
    unfold absorb
    split_ifs
    · exact ih _
    · simp

theorem insertNodes_ne_nil (l : List Span) (start stop : ℕ) : insertNodes l start stop ≠ [] := by
  have happend : ∀ lo node hi, lo ++ absorb node hi ≠ [] := fun lo node hi =>
    append_ne_nil_of_right_ne_nil lo (absorb_ne_nil node hi)
  unfold insertNodes
  cases hat : spanAt l start with
  | some node =>
    dsimp only
    split_ifs
    · exact ne_nil_of_mem (spanAt_some hat).1
    · exact happend _ _ _
  | none =>
    dsimp only
    split
    · exact happend _ _ _
    · split
      · exact happend _ _ _
      · exact happend _ _ _

theorem deleteNodes_small (hsep : Separated l) (start stop : ℕ) (hl : ∀ s ∈ l, s.stop ≤ bound) :
    (∀ s ∈ deleteNodes l start stop, s.stop ≤ bound) ∧ (deleteNodes l start stop).length ≤ l.length + 1 := by
  have hsplit := hsep.ordered.split start
  have hbefore : ∀ s ∈ before l start, s.stop ≤ bound := fun s hs => hl s (mem_before.mp hs).1
  have hafter : ∀ s ∈ after l start, s.stop ≤ bound := fun s hs => hl s (mem_after.mp hs).1
  obtain ⟨hcut, hcutlen⟩ := cut_small stop hafter
  have hlen := congrArg length hsplit
  simp only [length_append] at hlen
  unfold deleteNodes
  cases hat : spanAt l start with
  | some node =>
    have hnode := hl node (spanAt_some hat).1
    rw [hat, Option.toList_some, length_singleton] at hlen
    dsimp only
    split_ifs
    · refine ⟨forall_mem_append.mpr ⟨hbefore, forall_mem_cons.mpr ⟨hnode, hafter⟩⟩, ?_⟩
      simp only [length_append, length_cons]
      omega
    · refine ⟨forall_mem_append.mpr ⟨hbefore, hcut⟩, ?_⟩
      simp only [length_append]
      omega
  | none =>
    rw [hat, Option.toList_none, length_nil] at hlen
    dsimp only
    cases hp : (before l start).getLast?.filter (start < ·.stop) with
    | some prev =>
      obtain ⟨hlast, hreach⟩ := Option.filter_eq_some_iff.mp hp
      simp only [decide_eq_true_eq] at hreach
      obtain ⟨heq, hmem, -⟩ := hsep.parted.before_last hlast
      have hprev := hl prev hmem
      have hdrop : ∀ s ∈ (before l start).dropLast, s.stop ≤ bound := fun s hs => hbefore s (dropLast_subset _ hs)
      have hlen' := congrArg length heq
      rw [length_append, length_singleton] at hlen'
      dsimp only
      split_ifs
      · refine ⟨forall_mem_append.mpr ⟨hdrop, ?_⟩, ?_⟩
        · exact forall_mem_cons.mpr ⟨hreach.le.trans hprev, forall_mem_cons.mpr ⟨hprev, hafter⟩⟩
        · simp only [length_append, length_cons]
          omega
      · refine ⟨forall_mem_append.mpr ⟨hdrop, forall_mem_cons.mpr ⟨hreach.le.trans hprev, hcut⟩⟩, ?_⟩
        simp only [length_append, length_cons]
        omega
    | none =>
      refine ⟨forall_mem_append.mpr ⟨hbefore, hcut⟩, ?_⟩
      simp only [length_append]
      omega

theorem deleteNodes_of_not_deletes (hord : Ordered l) {start stop : ℕ} (h : deletesNodes l start stop = false) :
    deleteNodes l start stop = l := by
  have hsplit := hord.split start
  simp only [deletesNodes, Bool.or_eq_false_iff, Option.isSome_eq_false_iff, Option.isNone_iff_eq_none] at h
  obtain ⟨⟨hat, hprev⟩, hnext⟩ := h
  have hp : (before l start).getLast?.filter (start < ·.stop) = none := by
    cases hlast : (before l start).getLast? with
    | none => rfl
    | some prev => simpa [hlast] using hprev
  have hcut : cut stop (after l start) = after l start := by
    cases hafter : after l start with
    | nil => rfl
    | cons next hi =>
      rw [hafter, head?_cons, Option.any_some, decide_eq_false_iff_not, not_lt] at hnext
      rw [cut, if_pos hnext]
  rw [hat] at hsplit
  simp only [deleteNodes, hat, hp, hcut]
  exact hsplit.symm

end Nodes

/-! ## The tree in memory -/

/-- The tree in memory is this interval tree, and its intervals are `uint64_t`. -/
structure Sound (t : IntervalTreeDef) (u : IntervalTree) : Prop where
  refines : t.Refines u
  stop_le : ∀ s ∈ u.nodes, s.stop ≤ UINT64_MAX

section Sound
variable {t : IntervalTreeDef} {u : IntervalTree}

theorem sound_create : Sound .create .create := ⟨IntervalTreeDef.create_refines, by simp [IntervalTree.create]⟩

section
variable (h : Sound t u)

include h

theorem Sound.insert {start stop : ℕ} (hle : start ≤ stop) (hstop : stop ≤ UINT64_MAX) :
    ∃ t' u', t.insert start stop = some t' ∧ Sound t' u' ∧ (∀ x, x ∈ u' ↔ x ∈ u ∨ start ≤ x ∧ x < stop) ∧
      u'.nodes.length ≤ u.nodes.length + 1 ∧ u'.nodes ≠ [] := by
  obtain ⟨t', hrun, href⟩ := h.refines.insert hle
  obtain ⟨hsmall, hlen⟩ := insertNodes_small u.separated.ordered start h.stop_le hstop
  exact ⟨t', _, hrun, ⟨href, hsmall⟩, fun x => IntervalTree.mem_insert, hlen, insertNodes_ne_nil _ _ _⟩

theorem Sound.insertAll {l : List Span} (hl : ∀ s ∈ l, s.start ≤ s.stop ∧ s.stop ≤ UINT64_MAX) :
    ∃ t' u', l.foldlM (fun t s => t.insert s.start s.stop) t = some t' ∧ Sound t' u' ∧
      (∀ x, x ∈ u' ↔ x ∈ u ∨ Covers l x) ∧ u'.nodes.length ≤ u.nodes.length + l.length := by
  induction l generalizing t u with
  | nil => exact ⟨t, u, rfl, h, by simp, le_rfl⟩
  | cons s l ih =>
    rw [forall_mem_cons] at hl
    obtain ⟨t1, u1, hrun1, h1, hmem1, hlen1, -⟩ := h.insert hl.1.1 hl.1.2
    obtain ⟨t2, u2, hrun2, h2, hmem2, hlen2⟩ := ih h1 hl.2
    refine ⟨t2, u2, ?_, h2, fun x => ?_, ?_⟩
    · rw [foldlM_cons, hrun1]
      exact hrun2
    · rw [hmem2, hmem1, covers_cons, or_assoc]
      rfl
    · rw [length_cons]
      omega

theorem Sound.delete {start stop : ℕ} (hlt : start < stop) :
    ∃ t' u', t.delete start stop = some t' ∧ Sound t' u' ∧ (∀ x, x ∈ u' ↔ x ∈ u ∧ ¬ (start ≤ x ∧ x < stop)) ∧
      u'.nodes.length ≤ u.nodes.length + 1 ∧ (t'.deleted = false → t.deleted = false ∧ ∀ x, x ∈ u' ↔ x ∈ u) := by
  obtain ⟨t', hrun, href⟩ := h.refines.delete hlt
  obtain ⟨hsmall, hlen⟩ := deleteNodes_small u.separated start stop h.stop_le
  refine ⟨t', _, hrun, ⟨href, hsmall⟩, fun x => IntervalTree.mem_delete, hlen, fun hdel => ?_⟩
  rw [href.deleted, IntervalTree.delete, Bool.or_eq_false_iff] at hdel
  refine ⟨h.refines.deleted.trans hdel.1, fun x => ?_⟩
  have hsame : (u.delete start stop hlt).nodes = u.nodes := deleteNodes_of_not_deletes u.separated.ordered hdel.2
  rw [IntervalTree.mem_def, IntervalTree.mem_def, hsame]

theorem Sound.deleteAll {l : List Span} (hl : ∀ s ∈ l, s.start < s.stop ∧ s.stop ≤ UINT64_MAX) :
    ∃ t' u', l.foldlM (fun t s => t.delete s.start s.stop) t = some t' ∧ Sound t' u' ∧
      (∀ x, x ∈ u' ↔ x ∈ u ∧ ¬ Covers l x) ∧ u'.nodes.length ≤ u.nodes.length + l.length ∧
      (t'.deleted = false → t.deleted = false ∧ ∀ x, x ∈ u' ↔ x ∈ u) := by
  induction l generalizing t u with
  | nil => exact ⟨t, u, rfl, h, by simp, le_rfl, fun hdel => ⟨hdel, fun _ => Iff.rfl⟩⟩
  | cons s l ih =>
    rw [forall_mem_cons] at hl
    obtain ⟨t1, u1, hrun1, h1, hmem1, hlen1, hsame1⟩ := h.delete hl.1.1
    obtain ⟨t2, u2, hrun2, h2, hmem2, hlen2, hsame2⟩ := ih h1 hl.2
    refine ⟨t2, u2, ?_, h2, fun x => ?_, ?_, fun hdel => ?_⟩
    · rw [foldlM_cons, hrun1]
      exact hrun2
    · rw [hmem2, hmem1, covers_cons, not_or, and_assoc]
      rfl
    · rw [length_cons]
      omega
    · obtain ⟨hdel1, heq2⟩ := hsame2 hdel
      obtain ⟨hdel0, heq1⟩ := hsame1 hdel1
      exact ⟨hdel0, fun x => (heq2 x).trans (heq1 x)⟩

theorem Sound.empty : Sound t.empty u.empty :=
  ⟨h.refines.empty, by simp [IntervalTree.empty]⟩

theorem Sound.unmark : Sound { t with deleted := false } { u with deleted := false } :=
  ⟨⟨⟨h.refines.rep.nodes, h.refines.rep.size⟩, rfl⟩, h.stop_le⟩

theorem Sound.covers (x : ℕ) : Covers (inorder t.splay) x ↔ x ∈ u := by
  rw [h.refines.rep.nodes]
  rfl

end

end Sound

/-! ## Reading and writing a tree -/

theorem length_intervalBytes (s : Span) : (intervalBytes s).length = INTERVAL_SIZE := by
  rw [intervalBytes, length_append, length_toLE, length_toLE]
  rfl

theorem length_flatMap_intervalBytes (l : List Span) : (l.flatMap intervalBytes).length = l.length * INTERVAL_SIZE := by
  induction l with
  | nil => rfl
  | cons s l ih => rw [flatMap_cons, length_append, length_intervalBytes, ih, length_cons]; ring

theorem intervalTreeWrite1_eq (t : BinaryTree Span) (data : IntervalTreeWriteData) :
    (intervalTreeWrite1 t data).write.fd = data.write.fd ++ (inorder t).flatMap intervalBytes := by
  induction t generalizing data with
  | nil => simp [intervalTreeWrite1]
  | node node left right ihl ihr =>
    rw [intervalTreeWrite1]
    dsimp only
    split_ifs
    all_goals
      rw [ihr]
      have hl := ihl data
      simp only [IntervalTreeWriteData.write] at hl
      simp [IntervalTreeWriteData.write, ← append_assoc, hl]

/-- The file gets the intervals in order, whatever their number. -/
theorem intervalTreeWrite_eq (t : IntervalTreeDef) : intervalTreeWrite t = (inorder t.splay).flatMap intervalBytes := by
  have hwrite := intervalTreeWrite1_eq t.splay ⟨[], []⟩
  rw [IntervalTreeWriteData.write, IntervalTreeWriteData.write] at hwrite
  unfold intervalTreeWrite
  dsimp only
  split_ifs with hn
  · simpa [IntervalTreeWriteData.write] using hwrite
  · have hnil : (intervalTreeWrite1 t.splay ⟨[], []⟩).intervals = [] := length_eq_zero_iff.mp (by omega)
    rw [hnil] at hwrite
    simpa using hwrite

theorem reads_interval {s : Span} (h : s.start ≤ s.stop ∧ s.stop ≤ UINT64_MAX) :
    Reads readInterval (intervalBytes s) s := by
  have hmax : UINT64_MAX < 2 ^ 64 := by decide
  exact (reads_number8 (by omega)).bind ((reads_number8 (by omega)).bind_pure rfl)

theorem intervalTreeRead_eq {l : List Span} (hl : ∀ s ∈ l, s.start ≤ s.stop ∧ s.stop ≤ UINT64_MAX)
    (t : IntervalTreeDef) {fuel : ℕ} (hfuel : l.length ≤ fuel) :
    intervalTreeRead fuel t l.length (l.flatMap intervalBytes) =
      l.foldlM (fun t s => t.insert s.start s.stop) t := by
  induction fuel generalizing l t with
  | zero =>
    obtain rfl := length_eq_zero_iff.mp (Nat.le_zero.mp hfuel)
    rfl
  | succ fuel ih =>
    by_cases hn : l.length > 0
    · have hle : (if l.length > INTERVAL_COUNT then INTERVAL_COUNT else l.length) ≤ l.length := by
        split_ifs <;> omega
      have hpos : 0 < if l.length > INTERVAL_COUNT then INTERVAL_COUNT else l.length := by
        split_ifs
        · decide
        · exact hn
      rw [intervalTreeRead, if_pos hn]
      generalize (if l.length > INTERVAL_COUNT then INTERVAL_COUNT else l.length) = block at hle hpos ⊢
      have htake : (l.take block).length = block := length_take_of_le hle
      have hbytes : bytes (block * INTERVAL_SIZE) (l.flatMap intervalBytes) =
          some ((l.take block).flatMap intervalBytes, (l.drop block).flatMap intervalBytes) := by
        conv_lhs => rw [← take_append_drop block l, flatMap_append]
        exact reads_bytes (by rw [length_flatMap_intervalBytes, htake]) _
      dsimp only
      rw [hbytes]
      dsimp only [Option.bind_eq_bind, Option.bind_some]
      rw [readAll_flatMap intervalBytes id rfl (fun s hs => reads_interval (hl s (mem_of_mem_take hs))) htake.le,
        map_id]
      conv_rhs => rw [← take_append_drop block l, foldlM_append]
      refine congrArg _ (funext fun t => ?_)
      rw [← length_drop]
      exact ih (fun s hs => hl s (mem_of_mem_drop hs)) t (by rw [length_drop]; omega)
    · obtain rfl := length_eq_zero_iff.mp (Nat.le_zero.mp (not_lt.mp hn))
      rfl

end ZFS
