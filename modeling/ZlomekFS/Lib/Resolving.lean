import Mathlib.Tactic

/-! Names that are found through parents. A node has links to parents; its name is that of a parent, extended by the
link, if it leads to the node. The search goes up without a bound and drops the links that lead nowhere. -/

namespace Resolving
open List
inductive Node (κ : Type)
  | missing
  | top
  | links (l : List κ)

def Node.list {κ : Type} : Node κ → List κ
  | .links l => l
  | _ => []

def Node.ofKept {κ : Type} (l : List κ) : Node κ :=
  match l with
  | [] => .missing
  | l => .links l

/-- Names `β` of nodes `α`, with links `κ`. -/
structure Naming (α β κ : Type) where
  parent : κ → α
  top : β
  extend : β → κ → β
  leads : β → α → Bool

section Search
variable {α β κ σ : Type} (N : Naming α β κ)

/-- The links of a node one after the other, up to the first that leads to it; with those that are left. -/
def walk (call : σ → α → Option (σ × Option β)) (x : α) : List κ → σ → Option (σ × List κ × Option β)
  | [], s => some (s, [], none)
  | l :: rest, s =>
    match call s (N.parent l) with
    | none => none
    | some (s, none) => walk call x rest s
    | some (s, some p) =>
      if N.leads (N.extend p l) x then some (s, l :: rest, some (N.extend p l)) else walk call x rest s

/-- A store of nodes: `finish s x s' kept` is what a search for `x` that began with `s` makes of the store `s'`. -/
structure Store (σ α κ : Type) where
  node : σ → α → Node κ
  finish : σ → α → σ → List κ → σ

/-- The name of a node, with as many levels as there is fuel. -/
def search (S : Store σ α κ) : ℕ → σ → α → Option (σ × Option β)
  | 0, _, _ => none
  | n + 1, s, x =>
    match S.node s x with
    | .missing => some (s, none)
    | .top => some (s, some N.top)
    | .links l => (walk N (search S n) x l s).map fun (s', kept, p) => (S.finish s x s' kept, p)

def LeadsFirst (x : α) (kept : List κ) : Prop := ∀ a ∈ kept.head?, ∃ p, N.leads (N.extend p a) x = true

/-- Only the node itself is written, and if it is as it was, it keeps the links that are left. -/
structure Store.Lawful {δ : Type} (S : Store σ α κ) (N : Naming α β κ) (Inv : σ → Prop) (data : σ → α → δ) : Prop where
  node_congr : ∀ {s t x}, data s x = data t x → S.node s x = S.node t x
  inv : ∀ {s s' x l kept}, Inv s → Inv s' → S.node s x = .links l → kept <:+ l → Inv (S.finish s x s' kept)
  frame : ∀ {s s' x l kept y}, Inv s → Inv s' → S.node s x = .links l → y ≠ x →
    data (S.finish s x s' kept) y = data s' y
  kept : ∀ {s s' x l kept}, Inv s → Inv s' → S.node s x = .links l → kept <:+ l → LeadsFirst N x kept →
    data s' x = data s x → S.node (S.finish s x s' kept) x = .ofKept kept

def test (x : α) (l : κ) (r : Option β) : Option β :=
  r.bind fun p => if N.leads (N.extend p l) x then some (N.extend p l) else none

inductive Path (s : α → Node κ) : α → Option β → Prop
  | missing {x : α} (h : s x = .missing) : Path s x none
  | top {x : α} (h : s x = .top) : Path s x (some N.top)
  | links {x : α} {l : List κ} (h : s x = .links l) (res : κ → Option β) (hres : ∀ a ∈ l, Path s (N.parent a) (res a)) :
    Path s x (l.findSome? fun a => test N x a (res a))

def Parent (s : α → Node κ) (p x : α) : Prop := ∃ a ∈ (s x).list, N.parent a = p

def Dead (s : α → Node κ) (x : α) (a : κ) : Prop := ∃ r, Path N s (N.parent a) r ∧ test N x a r = none

def Pruned (s t : α → Node κ) : Prop :=
  ∀ x, t x = s x ∨ ∃ dead kept, s x = .links (dead ++ kept) ∧ (∀ a ∈ dead, Dead N s x a) ∧ t x = .ofKept kept

end Search

section Lemmas
variable {α β κ σ : Type} {N : Naming α β κ} {s : α → Node κ}

theorem walk_cons (call : σ → α → Option (σ × Option β)) (x : α) (a : κ) (l : List κ) (s : σ) :
    walk N call x (a :: l) s =
      (call s (N.parent a)).bind fun r =>
        match test N x a r.2 with
        | none => walk N call x l r.1
        | some p => some (r.1, a :: l, some p) := by
  rw [walk]
  cases call s (N.parent a) with
  | none => rfl
  | some r =>
    obtain ⟨s, p⟩ := r
    cases p with
    | none => rfl
    | some p => cases h : N.leads (N.extend p a) x <;> simp [test, h]

theorem walk_mono {call call' : σ → α → Option (σ × Option β)} (hcall : ∀ s x r, call s x = some r → call' s x = some r)
    {x : α} {l : List κ} {s : σ} {r : σ × List κ × Option β} (h : walk N call x l s = some r) :
    walk N call' x l s = some r := by
  induction l generalizing s with
  | nil => exact h
  | cons a l ih =>
    rw [walk_cons] at h ⊢
    obtain ⟨⟨s', p⟩, hp, h⟩ := Option.bind_eq_some_iff.mp h
    rw [hcall _ _ _ hp, Option.bind_some]
    cases htest : test N x a p with
    | none =>
      simp only [htest] at h ⊢
      exact ih h
    | some q => simpa only [htest] using h

theorem walk_suffix {call : σ → α → Option (σ × Option β)} {x : α} {l : List κ} {s : σ} {r : σ × List κ × Option β}
    (h : walk N call x l s = some r) : r.2.1 <:+ l := by
  induction l generalizing s with
  | nil =>
    obtain rfl := Option.some.inj h
    exact suffix_refl _
  | cons a l ih =>
    rw [walk_cons] at h
    obtain ⟨⟨s', p⟩, -, h⟩ := Option.bind_eq_some_iff.mp h
    cases htest : test N x a p with
    | none =>
      simp only [htest] at h
      exact (ih h).trans (suffix_cons a l)
    | some q =>
      simp only [htest] at h
      obtain rfl := Option.some.inj h
      exact suffix_refl _

@[simp] theorem Node.list_ofKept (l : List κ) : (Node.ofKept l).list = l := by
  cases l <;> rfl

/-! ## Names -/

theorem findSome_congr {f g : κ → Option β} {l : List κ} (h : ∀ a ∈ l, f a = g a) : l.findSome? f = l.findSome? g := by
  induction l with
  | nil => rfl
  | cons a l ih =>
    rw [findSome?_cons, findSome?_cons, h a mem_cons_self, ih fun b hb => h b (mem_cons_of_mem a hb)]

theorem Path.unique {x : α} {r r' : Option β} (h : Path N s x r) (h' : Path N s x r') : r = r' := by
  induction h generalizing r' with
  | missing h =>
    cases h' with
    | missing => rfl
    | top h' | links h' => rw [h] at h'; cases h'
  | top h =>
    cases h' with
    | missing h' => rw [h] at h'; cases h'
    | top => rfl
    | links h' => rw [h] at h'; cases h'
  | links h res hres ih =>
    cases h' with
    | missing h' | top h' => rw [h] at h'; cases h'
    | links h' res' hres' =>
      rw [h] at h'
      cases h'
      exact findSome_congr fun a ha => by rw [ih a ha (hres' a ha)]

theorem exists_paths {l : List κ} (h : ∀ a ∈ l, ∃ r, Path N s (N.parent a) r) :
    ∃ res : κ → Option β, ∀ a ∈ l, Path N s (N.parent a) (res a) := by
  have hres : ∀ a, ∃ r, a ∈ l → Path N s (N.parent a) r := by
    intro a
    by_cases ha : a ∈ l
    · obtain ⟨r, hr⟩ := h a ha
      exact ⟨r, fun _ => hr⟩
    · exact ⟨none, fun h => absurd h ha⟩
  choose res hres using hres
  exact ⟨res, hres⟩

theorem exists_path {x : α} (h : Acc (Parent N s) x) : ∃ r, Path N s x r := by
  induction h with
  | intro x _ ih =>
    cases hx : s x with
    | missing => exact ⟨_, .missing hx⟩
    | top => exact ⟨_, .top hx⟩
    | links l =>
      obtain ⟨res, hres⟩ := exists_paths fun a (ha : a ∈ l) => ih (N.parent a) ⟨a, by rw [hx]; exact ha, rfl⟩
      exact ⟨_, .links hx res hres⟩

theorem Path.leads (htop : ∀ x, s x = .top → N.leads N.top x = true) {x : α} {p : β}
    (h : Path N s x (some p)) : N.leads p x = true := by
  generalize hr : some p = r at h
  cases h with
  | missing => cases hr
  | top h =>
    cases hr
    exact htop x h
  | links h res hres =>
    obtain ⟨a, -, ha⟩ := exists_of_findSome?_eq_some hr.symm
    obtain ⟨q, -, hq⟩ := Option.bind_eq_some_iff.mp ha
    split_ifs at hq with hleads
    cases hq
    exact hleads

theorem findSome_of_dead {x : α} {dead kept : List κ} {res : κ → Option β}
    (hdead : ∀ a ∈ dead, Dead N s x a) (hres : ∀ a ∈ dead ++ kept, Path N s (N.parent a) (res a)) :
    (dead ++ kept).findSome? (fun a => test N x a (res a)) = kept.findSome? fun a => test N x a (res a) := by
  have hnone : dead.findSome? (fun a => test N x a (res a)) = none := by
    rw [findSome?_eq_none_iff]
    intro a ha
    obtain ⟨r, hr, htest⟩ := hdead a ha
    rw [(hres a (mem_append_left _ ha)).unique hr, htest]
  rw [findSome?_append, hnone, Option.none_or]

theorem Pruned.refl (s : α → Node κ) : Pruned N s s := fun _ => Or.inl rfl

end Lemmas

/-! ## Searches -/

section Searches
variable {α β κ σ δ : Type} {N : Naming α β κ} {S : Store σ α κ} {Inv : σ → Prop} {data : σ → α → δ}
  {s t : σ} {x : α}

theorem search_mono {m n : ℕ} (hmn : m ≤ n) {r : σ × Option β} (h : search N S m t x = some r) :
    search N S n t x = some r := by
  induction m generalizing n t x r with
  | zero => cases h
  | succ m ih =>
    obtain ⟨n, rfl⟩ := Nat.exists_eq_add_of_le' (Nat.one_le_of_lt hmn)
    rw [search] at h ⊢
    cases hx : S.node t x with
    | missing | top => simpa only [hx] using h
    | links l =>
      simp only [hx] at h ⊢
      obtain ⟨w, hw, hr⟩ := Option.map_eq_some_iff.mp h
      rw [walk_mono (fun _ _ _ => ih (by omega)) hw, Option.map_some, hr]

/-- A search from `t` that began with `s`: it returns the name, and writes the node and its ancestors only. -/
def Returns (N : Naming α β κ) (S : Store σ α κ) (Inv : σ → Prop) (data : σ → α → δ) (s t : σ) (x : α) : Prop :=
  ∃ n t' r, search N S n t x = some (t', r) ∧ Path N (S.node s) x r ∧ Inv t' ∧ Pruned N (S.node s) (S.node t') ∧
    ∀ y, ¬ Relation.ReflTransGen (Parent N (S.node s)) y x → data t' y = data t y

theorem walk_spec {l : List κ} {res : κ → Option β} (hres : ∀ a ∈ l, Path N (S.node s) (N.parent a) (res a))
    (hcalls : ∀ a ∈ l, ∀ t, Inv t → Pruned N (S.node s) (S.node t) → Returns N S Inv data s t (N.parent a))
    (hinv : Inv t) (ht : Pruned N (S.node s) (S.node t)) :
    ∃ n t' dead kept, walk N (search N S n) x l t = some (t', kept, l.findSome? fun a => test N x a (res a)) ∧
      Inv t' ∧ Pruned N (S.node s) (S.node t') ∧ l = dead ++ kept ∧ LeadsFirst N x kept ∧
      (∀ a ∈ dead, Dead N (S.node s) x a) ∧
      ∀ y, (∀ a ∈ l, ¬ Relation.ReflTransGen (Parent N (S.node s)) y (N.parent a)) → data t' y = data t y := by
  induction l generalizing t with
  | nil =>
    refine ⟨0, t, [], [], rfl, hinv, ht, rfl, ?_, fun a ha => absurd ha not_mem_nil, fun _ _ => rfl⟩
    exact fun a ha => absurd ha (Option.not_mem_none a)
  | cons a l ih =>
    have ha := hres a mem_cons_self
    obtain ⟨m, t1, r, hm, hr, hinv1, ht1, hframe1⟩ := hcalls a mem_cons_self t hinv ht
    obtain rfl := ha.unique hr
    cases htest : test N x a (res a) with
    | some p =>
      refine ⟨m, t1, [], a :: l, by simp [walk_cons, hm, htest], hinv1, ht1, rfl, ?_, fun b hb => absurd hb not_mem_nil,
        fun y hy => hframe1 y (hy a mem_cons_self)⟩
      intro b hb
      obtain rfl := Option.some.inj hb
      obtain ⟨q, -, hq⟩ := Option.bind_eq_some_iff.mp htest
      split_ifs at hq with hleads
      exact ⟨q, hleads⟩
    | none =>
      obtain ⟨n, t2, dead, kept, hn, hinv2, ht2, hl, hfirst, hdead, hframe2⟩ := ih (fun b hb => hres b (mem_cons_of_mem a hb))
        (fun b hb => hcalls b (mem_cons_of_mem a hb)) hinv1 ht1
      refine ⟨max m n, t2, a :: dead, kept, ?_, hinv2, ht2, by rw [hl]; rfl, hfirst, ?_, ?_⟩
      · rw [walk_cons, search_mono (le_max_left m n) hm, Option.bind_some]
        simp only [htest, findSome?_cons]
        exact walk_mono (fun _ _ _ => search_mono (le_max_right m n)) hn
      · intro b hb
        rcases mem_cons.mp hb with rfl | hb
        · exact ⟨res b, ha, htest⟩
        · exact hdead b hb
      · intro y hy
        rw [hframe2 y fun b hb => hy b (mem_cons_of_mem a hb), hframe1 y (hy a mem_cons_self)]

theorem not_self_of_acc {r : α → α → Prop} (h : Acc r x) : ¬ r x x := by
  induction h with
  | intro x _ ih => exact fun hx => ih x hx hx

theorem not_ancestor_of_acc {r : α → α → Prop} {p : α} (h : Acc r x) (hp : r p x) : ¬ Relation.ReflTransGen r x p :=
  fun hx => not_self_of_acc h.transGen (Relation.TransGen.tail' hx hp)

/-- A node that was not searched yet, or that has lost links. -/
theorem Pruned.cases {s t : α → Node κ} (h : Pruned N s t) (x : α) {l : List κ} (hx : s x = .links l) :
    ∃ dead kept, l = dead ++ kept ∧ (∀ a ∈ dead, Dead N s x a) ∧ (t x = .links kept ∨ kept = [] ∧ t x = .missing) := by
  rcases h x with htx | ⟨dead, kept, hs, hdead, htx⟩
  · exact ⟨[], l, rfl, fun a ha => absurd ha not_mem_nil, Or.inl (htx.trans hx)⟩
  · rw [hx] at hs
    cases hs
    cases kept with
    | nil => exact ⟨dead, [], rfl, hdead, Or.inr ⟨rfl, htx⟩⟩
    | cons a kept => exact ⟨dead, a :: kept, rfl, hdead, Or.inl htx⟩

theorem Pruned.eq_of_not_links {s t : α → Node κ} (h : Pruned N s t) (hx : ∀ l, s x ≠ .links l) : t x = s x := by
  rcases h x with htx | ⟨dead, kept, hs, -⟩
  · exact htx
  · exact absurd hs (hx _)

/-- Below finitely many parents the search returns, from any store that was pruned. -/
theorem returns_of_acc (hS : S.Lawful N Inv data) (h : Acc (Parent N (S.node s)) x) (hinv : Inv t)
    (ht : Pruned N (S.node s) (S.node t)) : Returns N S Inv data s t x := by
  induction h generalizing t with
  | intro x hacc ih =>
    cases hx : S.node s x with
    | missing =>
      have htx : S.node t x = .missing := (ht.eq_of_not_links (by simp [hx])).trans hx
      exact ⟨1, t, none, by rw [search, htx], .missing hx, hinv, ht, fun _ _ => rfl⟩
    | top =>
      have htx : S.node t x = .top := (ht.eq_of_not_links (by simp [hx])).trans hx
      exact ⟨1, t, _, by rw [search, htx], .top hx, hinv, ht, fun _ _ => rfl⟩
    | links l =>
      have hparent {a : κ} (ha : a ∈ l) : Parent N (S.node s) (N.parent a) x := ⟨a, by rw [hx]; exact ha, rfl⟩
      obtain ⟨res, hres⟩ := exists_paths fun a ha => exists_path (hacc (N.parent a) (hparent ha))
      have hpath := Path.links hx res hres
      obtain ⟨dead, left, rfl, hdead, htx⟩ := ht.cases x hx
      rw [findSome_of_dead hdead hres] at hpath
      rcases htx with htx | ⟨rfl, htx⟩
      · have hmem {a : κ} (ha : a ∈ left) : a ∈ dead ++ left := mem_append_right dead ha
        obtain ⟨n, t', dead', kept, hwalk, hinv', ht', hleft, hfirst, hdead', hframe⟩ := walk_spec
          (fun a ha => hres a (hmem ha)) (fun a ha t hinv ht => ih _ (hparent (hmem ha)) hinv ht) hinv ht
        have hkept : kept <:+ left := ⟨dead', hleft.symm⟩
        -- the node is not its own ancestor
        have hsame : data t' x = data t x := hframe x fun a ha =>
          not_ancestor_of_acc ⟨x, hacc⟩ (hparent (hmem ha))
        refine ⟨n + 1, S.finish t x t' kept, _, ?_, hpath, hS.inv hinv hinv' htx hkept, fun y => ?_, fun y hy => ?_⟩
        · rw [search, htx]
          exact congrArg (Option.map _) hwalk
        · by_cases hy : y = x
          · subst hy
            refine Or.inr ⟨dead ++ dead', kept, by rw [hx, hleft, append_assoc], ?_,
              hS.kept hinv hinv' htx hkept hfirst hsame⟩
            intro a ha
            rcases mem_append.mp ha with ha | ha
            · exact hdead a ha
            · exact hdead' a ha
          · rw [hS.node_congr (hS.frame hinv hinv' htx hy)]
            exact ht' y
        · have hne : y ≠ x := by
            rintro rfl
            exact hy .refl
          rw [hS.frame hinv hinv' htx hne]
          exact hframe y fun a ha habove => hy (habove.tail (hparent (hmem ha)))
      · exact ⟨1, t, none, by rw [search, htx], hpath, hinv, ht, fun _ _ => rfl⟩

theorem acc_of_walk {call : σ → α → Option (σ × Option β)} {P : σ → Prop} {Q : α → Prop}
    (hnever : ∀ p a y, N.leads (N.extend p a) y = false) {l : List κ} {w : σ × List κ × Option β}
    (h : walk N call x l t = some w) (ht : P t) (hcall : ∀ t y r, call t y = some r → P t → Q y ∧ P r.1) :
    (∀ a ∈ l, Q (N.parent a)) ∧ P w.1 := by
  have htest (a : κ) (p : Option β) : test N x a p = none := by cases p <;> simp [test, hnever]
  induction l generalizing t with
  | nil =>
    obtain rfl := Option.some.inj h
    exact ⟨fun a ha => absurd ha not_mem_nil, ht⟩
  | cons a l ih =>
    rw [walk_cons] at h
    obtain ⟨r, hr, h⟩ := Option.bind_eq_some_iff.mp h
    obtain ⟨ha, hP⟩ := hcall t _ r hr ht
    simp only [htest] at h
    obtain ⟨hl, hw⟩ := ih h hP
    exact ⟨forall_mem_cons.mpr ⟨ha, hl⟩, hw⟩

/-- Such a search goes through all parents, so it returns only where there are finitely many. -/
theorem acc_of_search (hS : S.Lawful N Inv data) (hnever : ∀ p a y, N.leads (N.extend p a) y = false) {n : ℕ}
    {r : σ × Option β} (h : search N S n t x = some r)
    (ht : Inv t ∧ ∀ y, S.node t y = S.node s y ∨ Acc (Parent N (S.node s)) y) :
    Acc (Parent N (S.node s)) x ∧ Inv r.1 ∧ ∀ y, S.node r.1 y = S.node s y ∨ Acc (Parent N (S.node s)) y := by
  induction n generalizing t x r with
  | zero => cases h
  | succ n ih =>
    have hacc (hx : ∀ a ∈ (S.node t x).list, Acc (Parent N (S.node s)) (N.parent a)) : Acc (Parent N (S.node s)) x := by
      rcases ht.2 x with htx | hacc
      · constructor
        rintro _ ⟨a, ha, rfl⟩
        exact hx a (htx ▸ ha)
      · exact hacc
    rw [search] at h
    cases hx : S.node t x with
    | missing | top =>
      simp only [hx] at h
      obtain rfl := Option.some.inj h
      exact ⟨hacc (by simp [hx, Node.list]), ht⟩
    | links l =>
      simp only [hx] at h
      obtain ⟨w, hw, rfl⟩ := Option.map_eq_some_iff.mp h
      obtain ⟨hl, hinv, hother⟩ := acc_of_walk hnever hw ht fun _ _ _ => ih
      have haccx := hacc (by rw [hx]; exact hl)
      refine ⟨haccx, hS.inv ht.1 hinv hx (walk_suffix hw), fun y => ?_⟩
      by_cases hy : y = x
      · exact Or.inr (hy ▸ haccx)
      · rw [hS.node_congr (hS.frame ht.1 hinv hx hy)]
        exact hother y

end Searches

end Resolving
