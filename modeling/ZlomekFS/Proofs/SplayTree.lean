import ZlomekFS.Spec.SplayTree

/-! Every sequence of calls on a splay tree keeps it a search tree over exactly the pairs the calls stored,
and every call answers from those pairs. -/

namespace ZFS
open Spans Trees List

/-! ## What the operations do to the nodes in key order -/

/-- A node of a tree at a place near its root, with the nodes before and after it. -/
inductive FoundAt : BinaryTree Span × SplayPos → List Span → Span → List Span → Prop
  | root (n : Span) (l r : BinaryTree Span) : FoundAt (.node n l r, .root) (inorder l) n (inorder r)
  | left (p n : Span) (a b c : BinaryTree Span) :
      FoundAt (.node p (.node n a b) c, .left) (inorder a) n (inorder b ++ p :: inorder c)
  | right (p n : Span) (a b c : BinaryTree Span) :
      FoundAt (.node p a (.node n b c), .right) (inorder a ++ p :: inorder b) n (inorder c)

theorem FoundAt.fromLeft {s : BinaryTree Span × SplayPos} {A B : List Span} {n : Span} (g : Span)
    (right : BinaryTree Span) (h : FoundAt s A n B) :
    FoundAt (splayFromLeft g right s) A n (B ++ g :: inorder right) := by
  cases h with
  | root n l r => simpa [splayFromLeft] using FoundAt.left g n l r right
  | left p n a b c => simpa [splayFromLeft] using FoundAt.root n a (.node p b (.node g c right))
  | right p n a b c => simpa [splayFromLeft] using FoundAt.root n (.node p a b) (.node g c right)

theorem FoundAt.fromRight {s : BinaryTree Span × SplayPos} {A B : List Span} {n : Span} (g : Span)
    (left : BinaryTree Span) (h : FoundAt s A n B) :
    FoundAt (splayFromRight g left s) (inorder left ++ g :: A) n B := by
  cases h with
  | root n l r => simpa [splayFromRight] using FoundAt.right g n left l r
  | left p n b c d => simpa [splayFromRight] using FoundAt.root n (.node g left b) (.node p c d)
  | right p n b c d => simpa [splayFromRight] using FoundAt.root n (.node p (.node g left b) c) d

/-- A node with the key, or a neighbour of the place for the key. -/
def Neighbour (key : ℕ) (A : List Span) (n : Span) (B : List Span) : Prop :=
  n.start = key ∨ n.start < key ∧ (∀ b ∈ B, key < b.start) ∨ key < n.start ∧ ∀ a ∈ A, a.start < key

/-- The helper brings a neighbour of the key near the root and keeps the nodes in order. -/
theorem splayTreeSplayHelper_spec (key : ℕ) {t : BinaryTree Span} (ht : t ≠ .nil) (hord : Ordered (inorder t)) :
    ∃ A n B, FoundAt (splayTreeSplayHelper key t) A n B ∧ A ++ n :: B = inorder t ∧ Neighbour key A n B := by
  induction t with
  | nil => exact absurd rfl ht
  | node n left right ihl ihr =>
    obtain ⟨hl, hr, hln, hnr, -⟩ := ordered_append_cons.mp hord
    unfold splayTreeSplayHelper
    split_ifs with heq hlt hnil hnil
    · exact ⟨_, _, _, .root n left right, rfl, Or.inl heq.symm⟩
    · exact ⟨_, _, _, .root n left right, rfl, Or.inr (Or.inr ⟨hlt, by simp [hnil]⟩)⟩
    · obtain ⟨A, m, B, hfound, heq', hnb⟩ := ihl hnil hl
      refine ⟨A, m, _, hfound.fromLeft n right, by simp [← heq'], hnb.imp_right (Or.imp_left ?_)⟩
      rintro ⟨hm, hB⟩
      refine ⟨hm, fun b hb => ?_⟩
      rcases mem_append.mp hb with hb | hb
      · exact hB b hb
      · rcases mem_cons.mp hb with rfl | hb
        · exact hlt
        · exact hlt.trans (hnr b hb)
    · exact ⟨_, _, _, .root n left right, rfl, Or.inr (Or.inl ⟨by omega, by simp [hnil]⟩)⟩
    · obtain ⟨A, m, B, hfound, heq', hnb⟩ := ihr hnil hr
      refine ⟨_, m, B, hfound.fromRight n left, by simp [← heq'], hnb.imp_right (Or.imp_right ?_)⟩
      rintro ⟨hm, hA⟩
      refine ⟨hm, fun a ha => ?_⟩
      rcases mem_append.mp ha with ha | ha
      · have := hln a ha
        omega
      · rcases mem_cons.mp ha with rfl | ha
        · omega
        · exact hA a ha

theorem splayTreeSplay_spec (key : ℕ) {t : BinaryTree Span} (ht : t ≠ .nil) (hord : Ordered (inorder t)) :
    ∃ n l r, splayTreeSplay key t = .node n l r ∧ inorder l ++ n :: inorder r = inorder t ∧
      Neighbour key (inorder l) n (inorder r) := by
  obtain ⟨A, n, B, hfound, heq, hnb⟩ := splayTreeSplayHelper_spec key ht hord
  unfold splayTreeSplay
  generalize splayTreeSplayHelper key t = s at hfound
  cases hfound with
  | root n l r => exact ⟨n, l, r, by simp [splayAtTop], heq, hnb⟩
  | left p n a b c => exact ⟨n, a, .node p b c, by simp [splayAtTop], heq, hnb⟩
  | right p n a b c => exact ⟨n, .node p a b, c, by simp [splayAtTop], heq, hnb⟩

section Operations
variable {t : BinaryTree Span} (hord : Ordered (inorder t)) (key : ℕ)
include hord

theorem splayTreeSplay_parts :
    t = .nil ∨ ∃ n l r, splayTreeSplay key t = .node n l r ∧ inorder (.node n l r) = inorder t ∧
      ((n.start = key ∧ before (inorder t) key = inorder l ∧ spanAt (inorder t) key = some n ∧
          after (inorder t) key = inorder r) ∨
        (n.start < key ∧ before (inorder t) key = inorder l ++ [n] ∧ spanAt (inorder t) key = none ∧
          after (inorder t) key = inorder r) ∨
        (key < n.start ∧ before (inorder t) key = inorder l ∧ spanAt (inorder t) key = none ∧
          after (inorder t) key = n :: inorder r)) := by
  by_cases ht : t = .nil
  · exact Or.inl ht
  obtain ⟨n, l, r, hsplay, heq, hnb⟩ := splayTreeSplay_spec key ht hord
  refine Or.inr ⟨n, l, r, hsplay, heq, ?_⟩
  rw [← heq] at hord ⊢
  obtain ⟨-, -, hln, hnr, -⟩ := ordered_append_cons.mp hord
  rcases hnb with rfl | ⟨hn, hr⟩ | ⟨hn, hl⟩
  · exact Or.inl ⟨rfl, by simpa using parts_of_append (m := some n) hln (by simp) hnr⟩
  · refine Or.inr (Or.inl ⟨hn, ?_⟩)
    have hl' : ∀ a ∈ inorder l ++ [n], a.start < key := fun a ha => by
      rcases mem_append.mp ha with ha | ha
      · exact (hln a ha).trans hn
      · rw [mem_singleton.mp ha]
        exact hn
    simpa using parts_of_append (m := none) hl' (by simp) hr
  · refine Or.inr (Or.inr ⟨hn, ?_⟩)
    have hr' : ∀ b ∈ n :: inorder r, key < b.start := fun b hb => by
      rcases mem_cons.mp hb with rfl | hb
      · exact hn
      · exact hn.trans (hnr b hb)
    simpa using parts_of_append (m := none) hl (by simp) hr'

theorem splayTreeLookup_spec :
    ∃ t', splayTreeLookup t key = (t', spanAt (inorder t) key) ∧ inorder t' = inorder t := by
  obtain rfl | ⟨n, l, r, hsplay, heq, hparts⟩ := splayTreeSplay_parts hord key
  · exact ⟨.nil, rfl, rfl⟩
  · refine ⟨.node n l r, ?_, heq⟩
    rw [splayTreeLookup, hsplay]
    rcases hparts with ⟨hn, -, hat, -⟩ | ⟨hn, -, hat, -⟩ | ⟨hn, -, hat, -⟩
    · simp [hat, hn]
    · simp [hat, hn.ne]
    · simp [hat, hn.ne']

theorem splayTreePredecessor_spec :
    ∃ t', splayTreePredecessor t key = (t', (before (inorder t) key).getLast?) ∧ inorder t' = inorder t := by
  obtain rfl | ⟨n, l, r, hsplay, heq, hparts⟩ := splayTreeSplay_parts hord key
  · exact ⟨.nil, rfl, rfl⟩
  · refine ⟨.node n l r, ?_, heq⟩
    rw [splayTreePredecessor, hsplay]
    rcases hparts with ⟨hn, hb, -⟩ | ⟨hn, hb, -⟩ | ⟨hn, hb, -⟩
    · simp [hb, hn, rightmost_eq]
    · simp [hb, hn]
    · simp [hb, hn.le, rightmost_eq]

theorem splayTreeSuccessor_spec :
    ∃ t', splayTreeSuccessor t key = (t', (after (inorder t) key).head?) ∧ inorder t' = inorder t := by
  obtain rfl | ⟨n, l, r, hsplay, heq, hparts⟩ := splayTreeSplay_parts hord key
  · exact ⟨.nil, rfl, rfl⟩
  · refine ⟨.node n l r, ?_, heq⟩
    rw [splayTreeSuccessor, hsplay]
    rcases hparts with ⟨hn, -, -, ha⟩ | ⟨hn, -, -, ha⟩ | ⟨hn, -, -, ha⟩
    · simp [ha, hn, leftmost_eq]
    · simp [ha, hn.le, leftmost_eq]
    · simp [ha, hn]

theorem splayTreeInsert_spec (value : ℕ) :
    inorder (splayTreeInsert t key value) = before (inorder t) key ++ ⟨key, value⟩ :: after (inorder t) key := by
  obtain rfl | ⟨n, l, r, hsplay, -, hparts⟩ := splayTreeSplay_parts hord key
  · rfl
  · rw [splayTreeInsert, hsplay]
    rcases hparts with ⟨hn, hb, -, ha⟩ | ⟨hn, hb, -, ha⟩ | ⟨hn, hb, -, ha⟩
    · simp [hb, ha, hn]
    · simp [hb, ha, hn, hn.ne]
    · simp [hb, ha, hn.not_gt, hn.ne']

theorem splayTreeDelete_spec :
    inorder (splayTreeDelete t key) = before (inorder t) key ++ after (inorder t) key := by
  obtain rfl | ⟨n, l, r, hsplay, -, hparts⟩ := splayTreeSplay_parts hord key
  · rfl
  · rw [splayTreeDelete, hsplay]
    rcases hparts with ⟨hn, hb, -, ha⟩ | ⟨hn, hb, -, ha⟩ | ⟨hn, hb, -, ha⟩
    · simp [hb, ha, hn, inorder_hang]
    · simp [hb, ha, hn.ne]
    · simp [hb, ha, hn.ne']

end Operations

/-- An assignment through a pointer changes the one node. -/
theorem setNode_spec {t : BinaryTree Span} {A B : List Span} {n : Span} (heq : inorder t = A ++ n :: B)
    (hord : Ordered (inorder t)) (node : Span) : inorder (setNode t n.start node) = A ++ node :: B := by
  rw [heq] at hord
  obtain ⟨-, -, hA, hB, -⟩ := ordered_append_cons.mp hord
  rw [setNode, inorder_map, heq, map_append, map_cons, if_pos rfl]
  have hid : ∀ C : List Span, (∀ c ∈ C, c.start ≠ n.start) →
      C.map (fun m => if m.start = n.start then node else m) = C := fun C hC =>
    (map_congr_left fun c hc => if_neg (hC c hc)).trans C.map_id'
  rw [hid A fun a ha => (hA a ha).ne, hid B fun b hb => (hB b hb).ne']

/-! ## Sequences of calls -/

inductive SplayCall
  | insert (key value : ℕ) | delete (key : ℕ) | lookup (key : ℕ) | min | max
  | predecessor (key : ℕ) | successor (key : ℕ)
  deriving DecidableEq, Repr

namespace SplayCall
variable {t : BinaryTree Span} {m : ℕ → Option ℕ}

/-- The tree after a call and the node it returns, the root after an insertion; `splay_tree_min` and
`splay_tree_max` do not splay. -/
def call (t : BinaryTree Span) : SplayCall → BinaryTree Span × Option Span
  | insert key value =>
    (splayTreeInsert t key value,
      match splayTreeInsert t key value with
      | .nil => none
      | .node n _ _ => some n)
  | delete key => (splayTreeDelete t key, none)
  | lookup key => splayTreeLookup t key
  | min => (t, leftmost t)
  | max => (t, rightmost t)
  | predecessor key => splayTreePredecessor t key
  | successor key => splayTreeSuccessor t key

/-- The pairs stored after a call, as a map from the keys. -/
def stored (m : ℕ → Option ℕ) : SplayCall → ℕ → Option ℕ
  | insert key value => Function.update m key (some value)
  | delete key => Function.update m key none
  | _ => m

/-- Of the stored pairs with a key in `K` the one whose key comes last in the order `R`, or nothing. -/
def Last (m : ℕ → Option ℕ) (K : ℕ → Prop) (R : ℕ → ℕ → Prop) : Option Span → Prop
  | none => ∀ k, K k → m k = none
  | some n => K n.start ∧ m n.start = some n.stop ∧ ∀ k, K k → m k ≠ none → R k n.start

/-- What a call returns, by the stored pairs alone. -/
def Answers (m : ℕ → Option ℕ) (r : Option Span) : SplayCall → Prop
  | insert key value => r = some ⟨key, value⟩
  | delete _ => r = none
  | lookup key => r = (m key).map (⟨key, ·⟩)
  | min => Last m (fun _ => True) (· ≥ ·) r
  | max => Last m (fun _ => True) (· ≤ ·) r
  | predecessor key => Last m (· < key) (· ≤ ·) r
  | successor key => Last m (key < ·) (· ≥ ·) r

/-- A search tree of the pairs of `m`. -/
structure Holds (t : BinaryTree Span) (m : ℕ → Option ℕ) : Prop where
  ordered : Ordered (inorder t)
  mem : ∀ n, n ∈ inorder t ↔ m n.start = some n.stop

theorem Holds.of_inorder {t' : BinaryTree Span} (h : Holds t m) (heq : inorder t' = inorder t) : Holds t' m :=
  ⟨heq ▸ h.ordered, heq ▸ h.mem⟩

theorem Holds.spanAt_eq (h : Holds t m) (key : ℕ) : spanAt (inorder t) key = (m key).map (⟨key, ·⟩) := by
  cases hs : spanAt (inorder t) key with
  | none =>
    cases hm : m key with
    | none => rfl
    | some v => exact absurd rfl (spanAt_none hs ⟨key, v⟩ ((h.mem ⟨key, v⟩).mpr hm))
  | some n =>
    obtain ⟨hn, rfl⟩ := spanAt_some hs
    simp [(h.mem n).mp hn]

/-- Inserting and deleting: around the key everything stays. -/
theorem Holds.update (h : Holds t m) {t' : BinaryTree Span} {key : ℕ} (v : Option ℕ)
    (heq : inorder t' = before (inorder t) key ++ ((v.map (⟨key, ·⟩)).toList ++ after (inorder t) key)) :
    Holds t' (Function.update m key v) := by
  have hparts : Ordered (before (inorder t) key ++ after (inorder t) key) := by
    refine pairwise_append.mpr ⟨h.ordered.filter _, h.ordered.filter _, fun a ha b hb => ?_⟩
    exact (mem_before.mp ha).2.trans (mem_after.mp hb).2
  refine ⟨?_, fun n => ?_⟩
  · rw [heq]
    cases v with
    | none => exact hparts
    | some v => exact hparts.insert_mid (fun a ha => (mem_before.mp ha).2) fun b hb => (mem_after.mp hb).2
  · rw [heq]
    simp only [mem_append, mem_before, mem_after, h.mem, Option.mem_toList, Option.map_eq_some_iff]
    rw [Function.update_apply]
    obtain ⟨k, w⟩ := n
    split_ifs with hk <;> grind

section Ends
variable (h : Holds t m) (K : ℕ → Prop) [DecidablePred K]
include h

theorem Holds.last_of {R : ℕ → ℕ → Prop} {r : Option Span} {l : List Span}
    (hl : l = (inorder t).filter fun n => K n.start) (hnone : r = none → l = [])
    (hsome : ∀ n, r = some n → n ∈ l ∧ ∀ x ∈ l, R x.start n.start) : Last m K R r := by
  have hmem : ∀ n : Span, n ∈ l ↔ K n.start ∧ m n.start = some n.stop := fun n => by
    rw [hl, mem_filter, h.mem, decide_eq_true_eq, and_comm]
  cases r with
  | none =>
    refine fun k hk => Option.eq_none_iff_forall_ne_some.mpr fun v hv => ?_
    simpa [hnone rfl] using (hmem ⟨k, v⟩).mpr ⟨hk, hv⟩
  | some n =>
    obtain ⟨hn, hR⟩ := hsome n rfl
    refine ⟨((hmem n).mp hn).1, ((hmem n).mp hn).2, fun k hk hm => ?_⟩
    obtain ⟨v, hv⟩ := Option.ne_none_iff_exists'.mp hm
    exact hR ⟨k, v⟩ ((hmem _).mpr ⟨hk, hv⟩)

theorem Holds.last_getLast : Last m K (· ≤ ·) ((inorder t).filter fun n => K n.start).getLast? := by
  refine h.last_of K rfl getLast?_eq_none_iff.mp fun n hn => ⟨mem_of_getLast? hn, fun x hx => ?_⟩
  obtain ⟨A, hA⟩ := getLast?_eq_some_iff.mp hn
  have hord : Ordered (A ++ [n]) := hA ▸ h.ordered.filter _
  rw [hA] at hx
  rcases mem_append.mp hx with hx | hx
  · exact ((ordered_append_cons.mp hord).2.2.1 x hx).le
  · rw [mem_singleton.mp hx]

theorem Holds.last_head : Last m K (· ≥ ·) ((inorder t).filter fun n => K n.start).head? := by
  refine h.last_of K rfl head?_eq_none_iff.mp fun n hn => ⟨mem_of_head? hn, fun x hx => ?_⟩
  obtain ⟨B, hB⟩ := head?_eq_some_iff.mp hn
  have hord : Ordered (n :: B) := hB ▸ h.ordered.filter _
  rw [hB] at hx
  rcases mem_cons.mp hx with rfl | hx
  · exact le_rfl
  · exact ((pairwise_cons.mp hord).1 x hx).le

end Ends

theorem root_splayTreeInsert (t : BinaryTree Span) (key value : ℕ) :
    ∃ l r, splayTreeInsert t key value = .node ⟨key, value⟩ l r := by
  unfold splayTreeInsert
  split
  · exact ⟨_, _, rfl⟩
  · split_ifs <;> exact ⟨_, _, rfl⟩

theorem call_spec (h : Holds t m) (c : SplayCall) : Holds (c.call t).1 (c.stored m) ∧ c.Answers m (c.call t).2 := by
  have hall : (inorder t).filter (fun _ => True) = inorder t := by simp
  cases c with
  | insert key value =>
    refine ⟨h.update (some value) (splayTreeInsert_spec h.ordered key value), ?_⟩
    obtain ⟨l, r, hroot⟩ := root_splayTreeInsert t key value
    simp only [call, hroot, Answers]
  | delete key => exact ⟨h.update none (splayTreeDelete_spec h.ordered key), rfl⟩
  | lookup key =>
    obtain ⟨t', heq, hin⟩ := splayTreeLookup_spec h.ordered key
    simp only [call, heq]
    exact ⟨h.of_inorder hin, h.spanAt_eq key⟩
  | min => exact ⟨h, by simpa only [call, Answers, leftmost_eq, hall] using h.last_head fun _ => True⟩
  | max => exact ⟨h, by simpa only [call, Answers, rightmost_eq, hall] using h.last_getLast fun _ => True⟩
  | predecessor key =>
    obtain ⟨t', heq, hin⟩ := splayTreePredecessor_spec h.ordered key
    simp only [call, heq]
    exact ⟨h.of_inorder hin, h.last_getLast (· < key)⟩
  | successor key =>
    obtain ⟨t', heq, hin⟩ := splayTreeSuccessor_spec h.ordered key
    simp only [call, heq]
    exact ⟨h.of_inorder hin, h.last_head (key < ·)⟩

/-- From any search tree, after any calls, the next call included. -/
theorem splayTree_calls (cs : List SplayCall) (c : SplayCall) (h : Holds t m) :
    Holds (cs.foldl (fun t c => (c.call t).1) t) (cs.foldl stored m) ∧
      c.Answers (cs.foldl stored m) (c.call (cs.foldl (fun t c => (c.call t).1) t)).2 := by
  have hrun : Holds (cs.foldl (fun t c => (c.call t).1) t) (cs.foldl stored m) := by
    induction cs generalizing t m with
    | nil => exact h
    | cons c cs ih => exact ih (call_spec h c).1
  exact ⟨hrun, (call_spec hrun c).2⟩

theorem splayTree_calls_created :
    Holds .nil (fun _ => none) ∧
      (predecessor 7).Answers ([insert 3 10, insert 5 20, lookup 4, delete 5].foldl stored fun _ => none)
        (some ⟨3, 10⟩) := by
  have h : Holds .nil (fun _ => none) := ⟨Pairwise.nil, fun n => by simp⟩
  exact ⟨h, (splayTree_calls [insert 3 10, insert 5 20, lookup 4, delete 5] (predecessor 7) h).2⟩

end SplayCall
end ZFS
