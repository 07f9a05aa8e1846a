import ZlomekFS.Proofs.IntervalSplay
import ZlomekFS.Proofs.SplayTree

/-! What the questions to an interval tree answer: `interval_tree_lookup`, `interval_tree_covered` and
`interval_tree_intersection`. The nodes of a tree never overlap, but they touch where `interval_tree_sub` was given an
empty interval. -/

namespace ZFS
open Spans Trees IntervalTreeDef List

namespace IntervalTreeDef

/-! ## The answers as functions of the nodes -/

section Answers
variable {t : IntervalTreeDef} {l : List Span}

theorem lookup_eq (hnodes : inorder t.splay = l) (hord : Ordered l) (value : ℕ) :
    ∃ t', t.lookup value = (t', (fromValue l value).head?) ∧ inorder t'.splay = l := by
  subst hnodes
  obtain ⟨splay, hlook, hs⟩ := splayTreeLookup_spec hord value
  obtain ⟨splay2, hpred, hs2⟩ := splayTreePredecessor_spec (hs.symm ▸ hord) value
  obtain ⟨splay3, hsucc, hs3⟩ := splayTreeSuccessor_spec (hs2.symm ▸ hs.symm ▸ hord) value
  rw [hs] at hpred hs2
  rw [hs2] at hsucc hs3
  unfold lookup fromValue
  rw [hlook]
  cases hat : spanAt (inorder t.splay) value with
  | some node => exact ⟨_, rfl, hs⟩
  | none =>
    simp only [hpred]
    cases (before (inorder t.splay) value).getLast?.filter (value < ·.stop) with
    | some prev => exact ⟨_, rfl, hs2⟩
    | none =>
      simp only [hsucc]
      exact ⟨_, rfl, hs3⟩

theorem covered_eq (hnodes : inorder t.splay = l) (hord : Ordered l) (start stop : ℕ) :
    ∃ t', t.covered start stop =
        (t', ((spanAt l start).or (before l start).getLast?).any (stop ≤ ·.stop)) ∧ inorder t'.splay = l := by
  subst hnodes
  obtain ⟨splay, hlook, hs⟩ := splayTreeLookup_spec hord start
  obtain ⟨splay2, hpred, hs2⟩ := splayTreePredecessor_spec (hs.symm ▸ hord) start
  rw [hs] at hpred hs2
  unfold covered
  rw [hlook]
  cases hat : spanAt (inorder t.splay) start with
  | some node => exact ⟨_, rfl, hs⟩
  | none =>
    simp only [hpred]
    exact ⟨_, rfl, hs2⟩

theorem intersectionLoop_eq {A rest : List Span} (start stop : ℕ) {fuel : ℕ} (hnodes : inorder t.splay = A ++ rest)
    (hord : Ordered (A ++ rest)) (hfuel : rest.length < fuel) (dest : List Span) :
    ∃ t', intersectionLoop start stop fuel t rest.head? dest =
        some (t', dest ++ (rest.takeWhile (·.start < stop)).map fun node =>
          ⟨max start node.start, min stop node.stop⟩) ∧ inorder t'.splay = A ++ rest := by
  induction rest generalizing A t fuel dest with
  | nil =>
    obtain ⟨fuel, rfl⟩ : ∃ n, fuel = n + 1 := ⟨fuel - 1, by simp at hfuel; omega⟩
    exact ⟨t, by simp [intersectionLoop], hnodes⟩
  | cons node rest ih =>
    obtain ⟨fuel, rfl⟩ : ∃ n, fuel = n + 1 := ⟨fuel - 1, by omega⟩
    rw [head?_cons, intersectionLoop]
    by_cases hlt : node.start < stop
    · obtain ⟨splay, hsucc, hs⟩ := splayTreeSuccessor_spec (hnodes.symm ▸ hord) node.start
      rw [hnodes, hord.parts_at.2.2] at hsucc
      rw [hnodes, append_cons] at hs
      rw [append_cons] at hord
      obtain ⟨t', hrun, ht'⟩ := ih (t := { t with splay := splay }) hs hord (Nat.lt_of_succ_lt_succ hfuel)
        (dest ++ [⟨max start node.start, min stop node.stop⟩])
      refine ⟨t', ?_, ht'.trans (append_cons ..).symm⟩
      rw [if_pos hlt, hsucc, takeWhile_cons_of_pos (by simpa using hlt), map_cons]
      simpa using hrun
    · rw [if_neg hlt, takeWhile_cons_of_neg (by simpa using hlt)]
      exact ⟨t, by simp, hnodes⟩

def partsIn (l : List Span) (r : Span) : List Span :=
  ((fromValue l r.start).takeWhile (·.start < r.stop)).map fun node => ⟨max r.start node.start, min r.stop node.stop⟩

theorem intersection1_eq (hnodes : inorder t.splay = l) (hord : Ordered l) (r : Span) (dest : List Span) :
    ∃ t', t.intersection1 r.start r.stop dest = some (t', dest ++ partsIn l r) ∧ inorder t'.splay = l := by
  obtain ⟨A, hA⟩ := hord.fromValue_suffix r.start
  have hfuel : (fromValue l r.start).length < t.splay.numNodes + 1 := by
    have hlen := congrArg length hA
    rw [length_append] at hlen
    rw [← length_inorder, hnodes]
    omega
  obtain ⟨t1, hlook, ht1⟩ := lookup_eq hnodes hord r.start
  unfold intersection1 partsIn
  rw [hlook]
  cases hfrom : fromValue l r.start with
  | cons node rest =>
    rw [hfrom] at hA hfuel
    rw [hA] at ht1 hord
    obtain ⟨t', hrun, ht'⟩ := intersectionLoop_eq r.start r.stop ht1 hord hfuel dest
    exact ⟨t', hrun, ht'.trans hA.symm⟩
  | nil =>
    -- no node is left, and the successor is asked for in vain
    have hafter : after l r.start = [] := by
      unfold fromValue at hfrom
      cases hat : spanAt l r.start with
      | some s => simp [hat] at hfrom
      | none =>
        simp only [hat, append_eq_nil_iff] at hfrom
        exact hfrom.2
    obtain ⟨splay, hsucc, hs⟩ := splayTreeSuccessor_spec (ht1.symm ▸ hord) r.start
    rw [ht1, hafter] at hsucc
    simp only [head?_nil, hsucc]
    exact ⟨{ t1 with splay := splay }, by simp [intersectionLoop], hs.trans ht1⟩

theorem intersectionVarray_eq (hnodes : inorder t.splay = l) (hord : Ordered l) (src dest : List Span) :
    ∃ t', t.intersectionVarray src dest = some (t', dest ++ src.flatMap (partsIn l)) ∧ inorder t'.splay = l := by
  induction src generalizing t dest with
  | nil => exact ⟨t, by simp [intersectionVarray], hnodes⟩
  | cons r src ih =>
    obtain ⟨t1, hrun, ht1⟩ := intersection1_eq hnodes hord r dest
    obtain ⟨t', hrest, ht'⟩ := ih ht1 (dest ++ partsIn l r)
    refine ⟨t', ?_, ht'⟩
    rw [intersectionVarray, hrun, Option.bind_some, flatMap_cons, ← append_assoc]
    exact hrest

end Answers

end IntervalTreeDef

/-! ## What the answers shall be -/

/-- The node that holds the value, or else the first one that does not start before it. -/
def FirstFrom (l : List Span) (value : ℕ) : Option Span → Prop
  | some n => n ∈ l ∧ (n.Has value ∨ ¬ Covers l value ∧ value ≤ n.start ∧ ∀ m ∈ l, value ≤ m.start → n.start ≤ m.start)
  | none => ¬ Covers l value ∧ ∀ m ∈ l, m.start < value

/-- `out` is the intersection of the ranges with the nodes. -/
structure IsIntersection (l src out : List Span) : Prop where
  covers : ∀ x, Covers out x ↔ Covers src x ∧ Covers l x
  le : ∀ s ∈ out, s.start ≤ s.stop
  ordered : out.Pairwise fun a b => a.stop ≤ b.start
  nonempty : (∀ n ∈ l, n.start < n.stop) → ∀ s ∈ out, s.start < s.stop

/-- No range is empty and inside a node, unless a node is empty itself. -/
def NoneInside (l src : List Span) : Prop :=
  (∀ n ∈ l, n.start < n.stop) → ∀ r ∈ src, r.start = r.stop → ∀ n ∈ l, ¬ (n.start < r.start ∧ r.start < n.stop)

/-- An empty range is at or in a node, and a range that is all in the tree has no place where two nodes touch. -/
def InOneNode (l : List Span) (start stop : ℕ) : Prop :=
  (start = stop → ∃ n ∈ l, n.start ≤ start ∧ start ≤ n.stop) ∧
  (start < stop → (∀ x, start ≤ x → x < stop → Covers l x) →
    ∀ n ∈ l, ∀ m ∈ l, n.stop = m.start → start < m.start → stop ≤ m.start)

section Spec
variable {l : List Span} (h : Parted l)
include h

theorem firstFrom_head (value : ℕ) : FirstFrom l value (fromValue l value).head? := by
  rw [h.fromValue_eq]
  cases hfrom : l.filter fun s => value ≤ s.start ∨ value < s.stop with
  | nil =>
    have hnone : ∀ s ∈ l, s.start < value ∧ s.stop ≤ value := fun s hs => by
      have := filter_eq_nil_iff.mp hfrom s hs
      simp only [decide_eq_true_eq] at this
      omega
    refine ⟨?_, fun m hm => (hnone m hm).1⟩
    rintro ⟨s, hs, -, hlt⟩
    have := hnone s hs
    omega
  | cons n rest =>
    have hmem : ∀ {s}, s ∈ n :: rest ↔ s ∈ l ∧ (value ≤ s.start ∨ value < s.stop) := by
      intro s
      rw [← hfrom, mem_filter, decide_eq_true_eq]
    have hord : Ordered (n :: rest) := by
      rw [← hfrom]
      exact Pairwise.filter _ h.ordered
    have hfirst : ∀ s ∈ n :: rest, s = n ∨ n.start < s.start := by
      intro s hs
      rcases mem_cons.mp hs with rfl | hs
      · exact Or.inl rfl
      · exact Or.inr ((pairwise_cons.mp hord).1 s hs)
    obtain ⟨hn, hreach⟩ := hmem.mp (mem_cons_self ..)
    refine ⟨hn, ?_⟩
    by_cases hhas : n.Has value
    · exact Or.inl hhas
    · have hle := h.le n hn
      simp only [Span.Has] at hhas
      refine Or.inr ⟨?_, by omega, fun m hm hv => ?_⟩
      · rintro ⟨s, hs, hsv⟩
        rcases hfirst s (hmem.mpr ⟨hs, Or.inr hsv.2⟩) with rfl | hlt
        · exact hhas hsv
        · have := hsv.1
          omega
      · rcases hfirst m (hmem.mpr ⟨hm, Or.inl hv⟩) with rfl | hlt
        · exact le_rfl
        · exact hlt.le

/-- `interval_tree_covered` tells whether one node holds the range. -/
theorem covered_iff_node {start stop : ℕ} (hle : start ≤ stop) :
    ((spanAt l start).or (before l start).getLast?).any (stop ≤ ·.stop) = true ↔
      ∃ n ∈ l, n.start ≤ start ∧ stop ≤ n.stop := by
  cases hat : spanAt l start with
  | some node =>
    obtain ⟨hnode, rfl⟩ := spanAt_some hat
    simp only [Option.some_or, Option.any_some, decide_eq_true_eq]
    constructor
    · intro hstop
      exact ⟨node, hnode, le_rfl, hstop⟩
    · rintro ⟨n, hn, hs, he⟩
      rcases hs.lt_or_eq with hlt | heq
      · -- an earlier node ends where this one starts, so the range is empty
        have := h.stop_le hn hnode hlt
        have := h.le node hnode
        omega
      · have hnn : n = node := by
          by_contra hne
          rcases pairwise_or h.ordered hn hnode hne with hlt | hlt <;> omega
        rwa [← hnn]
  | none =>
    simp only [Option.none_or]
    constructor
    · intro hany
      cases hlast : (before l start).getLast? with
      | none => simp [hlast] at hany
      | some prev =>
        obtain ⟨-, hmem, hpk, -⟩ := h.before_last hlast
        exact ⟨prev, hmem, hpk.le, by simpa [hlast] using hany⟩
    · rintro ⟨n, hn, hs, he⟩
      have hlt : n.start < start := lt_of_le_of_ne hs (spanAt_none hat n hn)
      obtain ⟨prev, hlast, hstop⟩ := h.before_stop_le (mem_before.mpr ⟨hn, hlt⟩)
      rw [hlast, Option.any_some, decide_eq_true_eq]
      omega

theorem covered_spec {start stop : ℕ} (hle : start ≤ stop) :
    ((∃ n ∈ l, n.start ≤ start ∧ stop ≤ n.stop) ↔ ∀ x, start ≤ x → x < stop → Covers l x) ↔
      InOneNode l start stop := by
  have hnode : (∃ n ∈ l, n.start ≤ start ∧ stop ≤ n.stop) → ∀ x, start ≤ x → x < stop → Covers l x := by
    rintro ⟨n, hn, hs, he⟩ x hx hx'
    exact ⟨n, hn, by omega, by omega⟩
  constructor
  · intro hiff
    constructor
    · rintro rfl
      exact hiff.mpr fun x hx hx' => absurd hx' (by omega)
    · intro hlt hall n hn m hm htouch hsm
      obtain ⟨k, hk, hks, hke⟩ := hiff.mpr hall
      have := h.stop_le hk hm (by omega)
      omega
  · rintro ⟨hempty, htouch⟩
    refine ⟨hnode, fun hall => ?_⟩
    rcases hle.eq_or_lt with rfl | hlt
    · exact hempty rfl
    · obtain ⟨n, hn, hns⟩ := hall start le_rfl hlt
      refine ⟨n, hn, hns.1, ?_⟩
      by_contra hcon
      -- what follows the end of the node is in a node that touches it
      have hend := hns.2
      obtain ⟨m, hm, hms⟩ := hall n.stop (by omega) (by omega)
      have hne : n ≠ m := by
        rintro rfl
        exact lt_irrefl _ hms.2
      have hms1 := hms.1
      have hms2 := hms.2
      rcases pairwise_or h.ordered hn hm hne with hnm | hmn
      · have := h.stop_le hn hm hnm
        have := htouch hlt hall n hn m hm (by omega) (by omega)
        omega
      · have := h.stop_le hm hn hmn
        have := hns.1
        omega

theorem mem_partsIn (r s : Span) : s ∈ partsIn l r ↔
    ∃ n ∈ l, ((r.start ≤ n.start ∨ r.start < n.stop) ∧ n.start < r.stop) ∧
      (⟨max r.start n.start, min r.stop n.stop⟩ : Span) = s := by
  have hord : Ordered (fromValue l r.start) := by
    rw [h.fromValue_eq]
    exact Pairwise.filter _ h.ordered
  rw [partsIn, hord.takeWhile_eq, mem_map]
  simp only [mem_filter, decide_eq_true_eq, h.fromValue_eq, and_assoc]

theorem partsIn_ordered (r : Span) : (partsIn l r).Pairwise fun a b => a.stop ≤ b.start := by
  unfold partsIn
  rw [pairwise_map, h.fromValue_eq]
  refine Pairwise.imp ?_ ((h.gap.sublist filter_sublist).sublist (takeWhile_sublist _))
  intro a b hab
  simp only
  omega

theorem intersection_spec (src : List Span) (hle : ∀ r ∈ src, r.start ≤ r.stop)
    (hsrc : src.Pairwise fun a b => a.stop ≤ b.start) :
    IsIntersection l src (src.flatMap (partsIn l)) ↔ NoneInside l src := by
  have hmem : ∀ s, s ∈ src.flatMap (partsIn l) ↔ ∃ r ∈ src, ∃ n ∈ l,
      ((r.start ≤ n.start ∨ r.start < n.stop) ∧ n.start < r.stop) ∧
        (⟨max r.start n.start, min r.stop n.stop⟩ : Span) = s := by
    intro s
    rw [mem_flatMap]
    simp only [mem_partsIn h]
  constructor
  · intro hint hne r hr hempty n hn hin
    have := hint.nonempty hne _ ((hmem _).mpr ⟨r, hr, n, hn, ⟨Or.inr hin.2, by omega⟩, rfl⟩)
    simp only at this
    omega
  · intro hnone
    constructor
    case covers =>
      intro x
      constructor
      · rintro ⟨s, hs, hx⟩
        obtain ⟨r, hr, n, hn, -, rfl⟩ := (hmem s).mp hs
        simp only [Span.Has] at hx
        exact ⟨⟨r, hr, by omega, by omega⟩, n, hn, by omega, by omega⟩
      · rintro ⟨⟨r, hr, hrx⟩, n, hn, hnx⟩
        simp only [Span.Has] at hrx hnx
        refine ⟨_, (hmem _).mpr ⟨r, hr, n, hn, by omega, rfl⟩, ?_⟩
        simp only [Span.Has]
        omega
    case le =>
      intro s hs
      obtain ⟨r, hr, n, hn, hin, rfl⟩ := (hmem s).mp hs
      have := hle r hr
      have := h.le n hn
      simp only
      omega
    case ordered =>
      refine pairwise_flatMap.mpr ⟨fun r _ => partsIn_ordered h r, hsrc.imp ?_⟩
      intro r r' hrr s hs s' hs'
      obtain ⟨n, -, -, rfl⟩ := (mem_partsIn h r s).mp hs
      obtain ⟨n', -, -, rfl⟩ := (mem_partsIn h r' s').mp hs'
      simp only
      omega
    case nonempty =>
      intro hne s hs
      obtain ⟨r, hr, n, hn, hin, rfl⟩ := (hmem s).mp hs
      have := hne n hn
      have hrle := hle r hr
      have hrlt : r.start < r.stop := by
        refine lt_of_le_of_ne hrle fun heq => hnone hne r hr heq n hn ?_
        omega
      simp only
      omega

end Spec

/-! ## Every tree that calls make -/

/-- The answers about every tree that calls make, in every shape that earlier answers left it in. A lookup is always
right; an intersection has an empty part, and a covered range is not known to be covered, just where the conditions
do not hold. No answer changes the nodes. -/
theorem treeQueries_exact (c : TreeCalls) (hv : c.Valid) :
    ∃ t₀, c.run = some t₀ ∧ (∀ x, Covers (inorder t₀.splay) x ↔ x ∈ c.offsets) ∧
      ∀ t : IntervalTreeDef, inorder t.splay = inorder t₀.splay →
        (∀ value, FirstFrom (inorder t.splay) value (t.lookup value).2 ∧
          inorder (t.lookup value).1.splay = inorder t.splay) ∧
        (∀ start stop, start ≤ stop → inorder (t.covered start stop).1.splay = inorder t.splay ∧
          (((t.covered start stop).2 = true ↔ ∀ x, start ≤ x → x < stop → x ∈ c.offsets) ↔
            InOneNode (inorder t.splay) start stop)) ∧
        (∀ start stop, start ≤ stop → ∃ t' out, t.intersection start stop = some (t', out) ∧
          inorder t'.splay = inorder t.splay ∧
          (IsIntersection (inorder t.splay) [⟨start, stop⟩] out ↔ NoneInside (inorder t.splay) [⟨start, stop⟩])) ∧
        ∀ src : List Span, (∀ r ∈ src, r.start ≤ r.stop) → src.Pairwise (fun a b => a.stop ≤ b.start) →
          ∃ t' out, t.intersectionVarray src [] = some (t', out) ∧ inorder t'.splay = inorder t.splay ∧
            (IsIntersection (inorder t.splay) src out ↔ NoneInside (inorder t.splay) src) := by
  obtain ⟨t₀, l, hrun, h, hmem, -⟩ := c.run_nodes hv
  obtain rfl := h.rep.nodes
  refine ⟨t₀, hrun, hmem, fun t ht => ?_⟩
  have hnodes : ∀ x, Covers (inorder t.splay) x ↔ x ∈ c.offsets := by rwa [ht]
  have happ : Parted (inorder t.splay) := by
    rw [ht]
    exact h.parted
  refine ⟨fun value => ?_, fun start stop hle => ?_, fun start stop hle => ?_, fun src hle hsrc => ?_⟩
  · obtain ⟨t', heq, ht'⟩ := lookup_eq rfl happ.ordered value
    rw [heq]
    exact ⟨firstFrom_head happ value, ht'⟩
  · obtain ⟨t', heq, ht'⟩ := covered_eq rfl happ.ordered start stop
    rw [heq]
    refine ⟨ht', ?_⟩
    simp only [covered_iff_node happ hle, ← hnodes]
    exact covered_spec happ hle
  · obtain ⟨t', heq, ht'⟩ := intersection1_eq rfl happ.ordered ⟨start, stop⟩ []
    refine ⟨t', _, heq, ht', ?_⟩
    have hspec := intersection_spec happ [⟨start, stop⟩] (by simpa using hle) (pairwise_singleton _ _)
    simpa using hspec
  · obtain ⟨t', heq, ht'⟩ := intersectionVarray_eq rfl happ.ordered src []
    refine ⟨t', _, heq, ht', ?_⟩
    exact intersection_spec happ src hle hsrc

theorem treeQueries_exact_sample :
    sampleCalls.Valid ∧ ∃ t, sampleCalls.run = some t ∧ inorder t.splay = [⟨0, 2⟩, ⟨7, 9⟩] ∧
      ((t.covered 0 2).2 = true ↔ ∀ x, 0 ≤ x → x < 2 → x ∈ sampleCalls.offsets) := by
  have hv : sampleCalls.Valid := by simp [sampleCalls, TreeCalls.Valid]
  obtain ⟨t, hrun, -, hall⟩ := treeQueries_exact sampleCalls hv
  have hnodes : inorder t.splay = [⟨0, 2⟩, ⟨7, 9⟩] := by
    have heval : sampleCalls.run.map (fun t => inorder t.splay) = some [⟨0, 2⟩, ⟨7, 9⟩] := by decide
    rw [hrun] at heval
    exact Option.some.inj heval
  refine ⟨hv, t, hrun, hnodes, ((hall t rfl).2.1 0 2 (by decide)).2.mpr ?_⟩
  rw [hnodes]
  refine ⟨by decide, fun _ _ n hn m hm htouch _ => ?_⟩
  simp only [mem_cons, not_mem_nil, or_false] at hn hm
  rcases hn with rfl | rfl <;> rcases hm with rfl | rfl <;> simp at htouch ⊢

/-- The tree of a file of which nothing is known does not cover the empty file, an empty range inside a node has an
empty intersection, and a range over two nodes that touch is not seen to be covered. -/
theorem treeQueries_not_exact :
    (∃ t, TreeCalls.create.run = some t ∧ (t.covered 0 0).2 = false) ∧
      (∃ t, (TreeCalls.insert .create 0 10).run = some t ∧
        (t.intersection 5 5).map (·.2) = some [⟨5, 5⟩]) ∧
      ∃ t, (TreeCalls.sub (.insert .create 0 10) (.insert .create 5 5)).run = some t ∧
        (t.covered 4 6).2 = false ∧ ∀ x, 4 ≤ x → x < 6 → Covers (inorder t.splay) x := by
  refine ⟨⟨_, rfl, by decide⟩, ⟨_, rfl, by decide⟩, _, rfl, by decide, fun x hx hx' => ?_⟩
  obtain rfl | rfl : x = 4 ∨ x = 5 := by omega
  · decide
  · decide

end ZFS
