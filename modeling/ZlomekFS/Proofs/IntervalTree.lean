import ZlomekFS.Spec.IntervalTree

/-! The offsets in an interval tree after each operation, and what the queries find. -/

namespace ZFS.IntervalTree
open Spans

variable {t : IntervalTree}

@[simp] theorem not_mem_create (x : ℕ) : x ∉ create := not_covers_nil x

@[simp] theorem not_mem_empty (x : ℕ) (t : IntervalTree) : x ∉ t.empty := not_covers_nil x

@[simp] theorem mem_insert {x start stop : ℕ} {t : IntervalTree} {h : start ≤ stop} :
    x ∈ t.insert start stop h ↔ x ∈ t ∨ start ≤ x ∧ x < stop :=
  (insertNodes_spec t.separated h).2 x

@[simp] theorem mem_delete {x start stop : ℕ} {t : IntervalTree} {h : start < stop} :
    x ∈ t.delete start stop h ↔ x ∈ t ∧ ¬ (start ≤ x ∧ x < stop) :=
  (deleteNodes_spec t.separated h).2 x

theorem stop_le_reach {s : Span} (hs : s ∈ t.nodes) : s.stop ≤ t.reach := by
  have hsep := t.separated
  cases hm : t.nodes.getLast? with
  | none => simp [List.getLast?_eq_none_iff.mp hm] at hs
  | some m =>
    have heq : t.nodes.dropLast ++ [m] = t.nodes := List.dropLast_append_getLast? m hm
    have hr : t.reach = m.stop := by simp [reach, treeMax, hm]
    rw [← heq] at hs hsep
    obtain ⟨-, hlast, hlt⟩ := separated_append.mp hsep
    rcases List.mem_append.mp hs with hs | hs
    · have := hlt s hs m (by simp)
      have := hlast.le m (by simp)
      omega
    · rw [List.mem_singleton.mp hs, hr]

theorem lt_reach {x : ℕ} (hx : x ∈ t) : x < t.reach := by
  obtain ⟨s, hs, hsx⟩ := hx
  exact hsx.2.trans_le (stop_le_reach hs)

@[simp] theorem mem_deleteFrom {x start : ℕ} {t : IntervalTree} : x ∈ t.deleteFrom start ↔ x ∈ t ∧ x < start := by
  unfold deleteFrom
  rw [mem_delete]
  refine and_congr_right fun hx => ?_
  have := lt_reach hx
  omega

theorem delete_nil {start stop : ℕ} (h : start < stop) (ht : t.nodes = []) :
    (t.delete start stop h).nodes = [] := by
  simp [delete, deleteNodes, ht, spanAt, before, after, cut]

theorem deleteFrom_nil (start : ℕ) (ht : t.nodes = []) : (t.deleteFrom start).nodes = [] := delete_nil _ ht

theorem mem_foldl_insert {x : ℕ} {l : List Span} (hl : ∀ s ∈ l, s.start ≤ s.stop) (t : IntervalTree) :
    x ∈ l.attach.foldl (fun u s => u.insert s.1.start s.1.stop (hl s.1 s.2)) t ↔ x ∈ t ∨ Covers l x := by
  induction l generalizing t with
  | nil => simp
  | cons s l ih =>
    simp only [List.attach_cons, List.foldl_cons, List.foldl_map]
    rw [ih (fun s hs => hl s (by simp [hs])), mem_insert, covers_cons, or_assoc]
    rfl

@[simp] theorem mem_add {x : ℕ} {t t' : IntervalTree} : x ∈ t.add t' ↔ x ∈ t ∨ x ∈ t' :=
  mem_foldl_insert t'.separated.le t

theorem nodesFrom_eq (t : IntervalTree) (value : ℕ) :
    t.nodesFrom value = t.nodes.filter fun s => value ≤ s.start ∨ value < s.stop :=
  t.separated.parted.fromValue_eq value

theorem nodesFrom_spec (t : IntervalTree) (value : ℕ) :
    Separated (t.nodesFrom value) ∧ (∀ s ∈ t.nodesFrom value, s ∈ t.nodes) ∧
      (∀ x, value ≤ x → (x ∈ t ↔ Covers (t.nodesFrom value) x)) ∧
      ∀ s ∈ t.nodesFrom value, value ≤ s.start ∨ s.start ≤ value ∧ value < s.stop := by
  have hmem : ∀ s, s ∈ t.nodesFrom value ↔ s ∈ t.nodes ∧ (value ≤ s.start ∨ value < s.stop) := fun s => by
    rw [nodesFrom_eq, List.mem_filter, decide_eq_true_eq]
  refine ⟨?_, fun s hs => ((hmem s).mp hs).1, fun x hx => ?_, fun s hs => ?_⟩
  · rw [nodesFrom_eq]
    exact t.separated.sublist List.filter_sublist
  · constructor
    · rintro ⟨s, hs, hsx⟩
      exact ⟨s, (hmem s).mpr ⟨hs, Or.inr (hx.trans_lt hsx.2)⟩, hsx⟩
    · rintro ⟨s, hs, hsx⟩
      exact ⟨s, ((hmem s).mp hs).1, hsx⟩
  · have := ((hmem s).mp hs).2
    omega

theorem lookup_some {value : ℕ} {node : Span} (h : t.lookup value = some node) :
    node ∈ t.nodes ∧ (value ≤ node.start ∨ value < node.stop) ∧ ∀ x, value ≤ x → x ∈ t → node.start ≤ x := by
  obtain ⟨hsep, hmem, hcov, hpos⟩ := t.nodesFrom_spec value
  have hcons : t.nodesFrom value = node :: (t.nodesFrom value).tail := (List.cons_head?_tail h).symm
  have hin : node ∈ t.nodesFrom value := by rw [hcons]; simp
  refine ⟨hmem node hin, (hpos node hin).imp_right And.right, fun x hx hxt => ?_⟩
  rw [hcov x hx, hcons, covers_cons] at hxt
  rw [hcons] at hsep
  obtain ⟨hle, hgap, -⟩ := separated_cons.mp hsep
  rcases hxt with hxt | ⟨b, hb, hbx⟩
  · exact hxt.1
  · have := hgap b hb
    have := hbx.1
    omega

theorem lookup_none {value : ℕ} (h : t.lookup value = none) : ∀ x, value ≤ x → x ∉ t := by
  intro x hx
  rw [(t.nodesFrom_spec value).2.2.1 x hx]
  rw [lookup, List.head?_eq_none_iff] at h
  simp [h]

theorem lookup_head {value : ℕ} {node : Span} {rest : List Span}
    (h : t.nodes = node :: rest) (hle : value ≤ node.start) : t.lookup value = some node := by
  have hsep := t.separated
  rw [h] at hsep
  obtain ⟨hn, hgap, -⟩ := separated_cons.mp hsep
  rw [lookup, nodesFrom, h]
  rcases hle.eq_or_lt with rfl | hlt
  · simp [spanAt]
  · have hfar : ∀ b ∈ rest, value < b.start := fun b hb => by
      have := hgap b hb
      omega
    have hat : spanAt (node :: rest) value = none := by
      simp only [spanAt, List.find?_eq_none, List.forall_mem_cons, decide_eq_true_eq]
      exact ⟨by omega, fun b hb => (hfar b hb).ne'⟩
    have hbefore : before (node :: rest) value = [] := by
      simp only [before, List.filter_eq_nil_iff, List.forall_mem_cons, decide_eq_true_eq]
      exact ⟨by omega, fun b hb => (hfar b hb).le.not_gt⟩
    simp [hat, hbefore, after, hlt]

theorem delete_head {node : Span} {rest : List Span} {stop : ℕ} (h : t.nodes = node :: rest)
    (hpos : node.start < stop) (hle : stop ≤ node.stop) :
    (t.delete node.start stop hpos).nodes = if stop < node.stop then ⟨stop, node.stop⟩ :: rest else rest := by
  have hsep := t.separated
  rw [h] at hsep
  obtain ⟨hn, hgap, -⟩ := separated_cons.mp hsep
  have hbefore : before (node :: rest) node.start = [] := by
    simp only [before, List.filter_eq_nil_iff, List.forall_mem_cons, decide_eq_true_eq]
    refine ⟨lt_irrefl _, fun b hb => ?_⟩
    have := hgap b hb
    omega
  have hafter : after (node :: rest) node.start = rest := by
    simp only [after, lt_irrefl, decide_false, List.filter_cons, Bool.false_eq_true, if_false,
      List.filter_eq_self, decide_eq_true_eq]
    intro b hb
    have := hgap b hb
    omega
  have hcut : cut node.stop rest = rest := by
    cases rest with
    | nil => rfl
    | cons b rest => simp [cut, (hgap b (by simp)).le]
  simp only [delete, deleteNodes, h, hbefore, hafter, spanAt, List.find?_cons, decide_true, List.nil_append]
  split_ifs with hlt
  · rfl
  · rw [show stop = node.stop by omega, hcut]

theorem mem_of_node {node : Span} {x : ℕ} (h : node ∈ t.nodes)
    (hx : node.start ≤ x ∧ x < node.stop) : x ∈ t := ⟨node, h, hx⟩

theorem covered_mem {start stop x : ℕ} (h : t.covered start stop = true)
    (hx : start ≤ x) (hx' : x < stop) : x ∈ t := by
  unfold covered at h
  cases hat : spanAt t.nodes start with
  | some node =>
    obtain ⟨hnode, hstart⟩ := spanAt_some hat
    simp only [hat, Option.some_or, decide_eq_true_eq] at h
    exact mem_of_node hnode (by omega)
  | none =>
    simp only [hat, Option.none_or] at h
    cases hp : (before t.nodes start).getLast? with
    | none => simp [hp] at h
    | some prev =>
      simp only [hp, decide_eq_true_eq] at h
      obtain ⟨-, hmem, hpk, -⟩ := t.separated.parted.before_last hp
      exact mem_of_node hmem (by omega)

/-- What the parts of `[start, stop)` outside a tree are: nonempty, in order, outside the tree,
and together all of it. The last one can reach past `stop`, up to the next node. -/
structure IsComplement (t : IntervalTree) (start stop : ℕ) (out : List Span) : Prop where
  lt : ∀ b ∈ out, b.start < b.stop
  start_le : ∀ b ∈ out, start ≤ b.start
  lt_stop : ∀ b ∈ out, b.start < stop
  ordered : out.Pairwise (fun a b => a.stop ≤ b.start)
  not_mem : ∀ x, Covers out x → x ∉ t
  covers : ∀ x, start ≤ x → x < stop → x ∉ t → Covers out x
  overhang : ∀ b ∈ out, b.stop ≤ stop ∨ ∃ c ∈ t.nodes, b.stop = c.start

theorem complement_spec (t : IntervalTree) (start stop : ℕ) :
    IsComplement t start stop (t.complement start stop) := by
  obtain ⟨hsep, -, hcov, -⟩ := t.nodesFrom_spec start
  have hafter : ∀ b ∈ after t.nodes start, start < b.start ∧ b ∈ t.nodes := fun b hb =>
    ⟨(mem_after.mp hb).2, (mem_after.mp hb).1⟩
  -- it is enough to know where the first gap starts
  suffices hlast : ∀ last, start ≤ last → (∀ b ∈ after t.nodes start, last < b.start) →
      (∀ x, start ≤ x → (x ∈ t ↔ x < last ∨ Covers (after t.nodes start) x)) →
      IsComplement t start stop (gaps stop last (after t.nodes start)) by
    -- a node that starts at `start` or before it is the first one that is looked at
    have hfirst : ∀ node : Span, node.start ≤ start → start ≤ node.stop →
        t.nodesFrom start = node :: after t.nodes start →
        IsComplement t start stop (gaps stop node.stop (after t.nodes start)) := by
      intro node hns hne heq
      rw [heq] at hsep hcov
      refine hlast node.stop hne (separated_cons.mp hsep).2.1 fun x hx => ?_
      rw [hcov x hx, covers_cons]
      simp only [Span.Has, hns.trans hx, true_and]
    unfold nodesFrom at hfirst hcov
    unfold complement
    cases hat : spanAt t.nodes start with
    | some node =>
      obtain ⟨hnode, hstart⟩ := spanAt_some hat
      rw [hat] at hfirst
      exact hfirst node hstart.le (hstart.symm.le.trans (t.separated.le node hnode)) rfl
    | none =>
      rw [hat] at hfirst hcov
      cases hp : (before t.nodes start).getLast?.filter (start < ·.stop) with
      | none =>
        refine hlast start le_rfl (fun b hb => (hafter b hb).1) fun x hx => ?_
        rw [hcov x hx, hp]
        simp [hx.not_gt]
      | some prev =>
        obtain ⟨hprev, hreach⟩ := Option.filter_eq_some_iff.mp hp
        rw [hp] at hfirst
        exact hfirst prev (mem_before.mp (List.mem_of_getLast? hprev)).2.le (decide_eq_true_eq.mp hreach).le rfl
  intro last hle hlt hmem
  have hg := gaps_spec stop last (t.separated.after start) hlt
  refine ⟨hg.lt, fun b hb => hle.trans (hg.last_le b hb), hg.lt_bound, hg.ordered, fun x hx hxt => ?_,
    fun x hx hxs hxt => ?_, fun b hb => ?_⟩
  · have hlx : last ≤ x := Separated.covers_ge hg.last_le hx
    rcases (hmem x (hle.trans hlx)).mp hxt with h | h
    · omega
    · exact hg.not_covers x hx h
  · rw [hmem x hx, not_or] at hxt
    exact hg.covers x (by omega) hxs hxt.2
  · rcases hg.overhang b hb with h | ⟨c, hc, h⟩
    · exact Or.inl h
    · exact Or.inr ⟨c, (hafter c hc).2, h⟩

theorem mem_intersection {start stop x : ℕ} :
    Covers (t.intersection start stop) x ↔ x ∈ t ∧ start ≤ x ∧ x < stop := by
  obtain ⟨hsep, hmem, hcov, -⟩ := t.nodesFrom_spec start
  have hall : x < stop → (Covers ((t.nodesFrom start).takeWhile (·.start < stop)) x ↔ Covers (t.nodesFrom start) x) := by
    intro hx
    rw [hsep.ordered.takeWhile_eq]
    constructor
    · rintro ⟨s, hs, hsx⟩
      exact ⟨s, (List.mem_filter.mp hs).1, hsx⟩
    · rintro ⟨s, hs, hsx⟩
      exact ⟨s, List.mem_filter.mpr ⟨hs, by simpa using hsx.1.trans_lt hx⟩, hsx⟩
  have hclip : Covers (t.intersection start stop) x ↔
      Covers ((t.nodesFrom start).takeWhile (·.start < stop)) x ∧ start ≤ x ∧ x < stop := by
    simp only [Covers, intersection, List.mem_map, exists_exists_and_eq_and, Span.Has]
    constructor
    · rintro ⟨s, hs, hx⟩
      exact ⟨⟨s, hs, by omega⟩, by omega⟩
    · rintro ⟨⟨s, hs, hx⟩, hx'⟩
      exact ⟨s, hs, by omega⟩
  rw [hclip]
  refine and_congr_left fun hx => ?_
  rw [hall hx.2, hcov x hx.1]

end ZFS.IntervalTree
