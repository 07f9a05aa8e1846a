import Mathlib.Tactic

/-! Binary trees read in order: the list of the values, the two ends of it, and joining two trees. -/

namespace Trees

variable {α β : Type}

def inorder : BinaryTree α → List α
  | .nil => []
  | .node x l r => inorder l ++ x :: inorder r

@[simp] theorem inorder_nil : inorder (.nil : BinaryTree α) = [] := rfl

@[simp] theorem inorder_node (x : α) (l r : BinaryTree α) :
    inorder (.node x l r) = inorder l ++ x :: inorder r := rfl

@[simp] theorem inorder_eq_nil {t : BinaryTree α} : inorder t = [] ↔ t = .nil := by
  cases t <;> simp

theorem inorder_map (f : α → β) (t : BinaryTree α) : inorder (t.map f) = (inorder t).map f := by
  induction t with
  | nil => rfl
  | node x l r ihl ihr => simp [BinaryTree.map, ihl, ihr]

theorem length_inorder (t : BinaryTree α) : (inorder t).length = t.numNodes := by
  induction t with
  | nil => rfl
  | node x l r ihl ihr =>
    simp only [inorder_node, List.length_append, List.length_cons, ihl, ihr, BinaryTree.numNodes]
    omega

def leftmost : BinaryTree α → Option α
  | .nil => none
  | .node x .nil _ => some x
  | .node _ (.node y l r) _ => leftmost (.node y l r)

def rightmost : BinaryTree α → Option α
  | .nil => none
  | .node x _ .nil => some x
  | .node _ _ (.node y l r) => rightmost (.node y l r)

theorem leftmost_eq (t : BinaryTree α) : leftmost t = (inorder t).head? := by
  fun_induction leftmost t with
  | case1 | case2 x r => rfl
  | case3 x r y l r' ih => rw [ih]; simp [List.head?_append]

theorem rightmost_eq (t : BinaryTree α) : rightmost t = (inorder t).getLast? := by
  fun_induction rightmost t with
  | case1 => rfl
  | case2 x l => simp
  | case3 x l y l' r ih => rw [ih]; simp [List.getLast?_append, List.getLast?_cons]

def hang : BinaryTree α → BinaryTree α → BinaryTree α
  | .nil, right => right
  | .node x l r, right => .node x l (hang r right)

theorem inorder_hang (left right : BinaryTree α) : inorder (hang left right) = inorder left ++ inorder right := by
  induction left with
  | nil => rfl
  | node x l r _ ih => simp [hang, ih]

/-- A function called for the values in order until it asks to stop; it may also fail. -/
def foreachInorder {σ : Type} (f : α → σ → Option (σ × Bool)) : BinaryTree α → σ → Option (σ × Bool)
  | .nil, s => some (s, false)
  | .node x l r, s =>
    match foreachInorder f l s with
    | some (s, false) =>
      match f x s with
      | some (s, false) => foreachInorder f r s
      | res => res
    | res => res

def foreachList {σ : Type} (f : α → σ → Option (σ × Bool)) : List α → σ → Option (σ × Bool)
  | [], s => some (s, false)
  | x :: l, s =>
    match f x s with
    | some (s, false) => foreachList f l s
    | res => res

theorem foreachList_append {σ : Type} (f : α → σ → Option (σ × Bool)) (l l' : List α) (s : σ) :
    foreachList f (l ++ l') s =
      match foreachList f l s with
      | some (s, false) => foreachList f l' s
      | res => res := by
  induction l generalizing s with
  | nil => rfl
  | cons x l ih =>
    rw [List.cons_append, foreachList, foreachList]
    rcases f x s with _ | ⟨s1, _ | _⟩
    · rfl
    · exact ih s1
    · rfl

theorem foreachInorder_eq {σ : Type} (f : α → σ → Option (σ × Bool)) (t : BinaryTree α) (s : σ) :
    foreachInorder f t s = foreachList f (inorder t) s := by
  induction t generalizing s with
  | nil => rfl
  | node x l r ihl ihr =>
    rw [foreachInorder, inorder_node, foreachList_append, ihl]
    rcases foreachList f (inorder l) s with _ | ⟨s1, _ | _⟩
    · rfl
    · simp only [foreachList]
      rcases f x s1 with _ | ⟨s2, _ | _⟩
      · rfl
      · exact ihr s2
      · rfl
    · rfl

end Trees
