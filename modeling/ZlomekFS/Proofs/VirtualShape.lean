import ZlomekFS.Lib.Tables
import ZlomekFS.Spec.VirtualDirs

/-! The virtual directories make a tree: a new one is linked below its parent, and one without subdirectories leaves
the array of its parent and the table of names. -/

namespace ZFS.Virtual
open Function Indexed Tables

/-! ## The shape of the tree -/

/-- The tree of the directories: `place` is the parent of a directory and its name there, `index` its index in the array
`subdirs` of the parent, and `path` tells the names from the root to it. -/
structure Shape (live : ℕ → Prop) (place : ℕ → Option (ℕ × Name)) (subdirs : ℕ → List ℕ) (index : ℕ → ℕ)
    (byName : ℕ × Name → Option ℕ) (next : ℕ) (path : ℕ → List Name) : Prop where
  root : live Virtual.root ∧ place Virtual.root = none
  rootPath : path Virtual.root = []
  placed : ∀ vd, live vd → vd ≠ Virtual.root →
    ∃ p name, place vd = some (p, name) ∧ live p ∧ p < vd ∧ path vd = path p ++ [name]
  dead : ∀ vd, ¬ live vd → place vd = none
  bound : ∀ vd, live vd → vd < next
  inverse : Inverse byName place
  children : ∀ p, live p → Holds (subdirs p) (fun vd => ∃ name, place vd = some (p, name)) index

namespace Shape

variable {live live' : ℕ → Prop} {place place' : ℕ → Option (ℕ × Name)} {subdirs subdirs' : ℕ → List ℕ}
  {index index' : ℕ → ℕ} {byName : ℕ × Name → Option ℕ} {next : ℕ} {path : ℕ → List Name} {vd p a : ℕ} {name : Name}
  (h : Shape live place subdirs index byName next path)

include h

theorem place_spec (hvd : place vd = some (p, name)) : live vd ∧ live p ∧ p < vd ∧ path vd = path p ++ [name] := by
  have hlive : live vd := by
    by_contra hdead
    rw [h.dead vd hdead] at hvd
    cases hvd
  have hroot : vd ≠ Virtual.root := by
    rintro rfl
    rw [h.root.2] at hvd
    cases hvd
  obtain ⟨p', name', hp, hrest⟩ := h.placed vd hlive hroot
  rw [hvd] at hp
  cases hp
  exact ⟨hlive, hrest⟩

theorem eq_root (hvd : live vd) (hp : place vd = none) : vd = Virtual.root := by
  by_contra hroot
  obtain ⟨p, name, hp', -⟩ := h.placed vd hvd hroot
  rw [hp] at hp'
  cases hp'

theorem length_le : ∀ vd, live vd → (path vd).length ≤ vd := by
  intro vd
  induction vd using Nat.strong_induction_on with
  | _ vd ih =>
    intro hvd
    by_cases hroot : vd = Virtual.root
    · rw [hroot, h.rootPath]
      exact Nat.zero_le _
    · obtain ⟨p, name, -, hp, hlt, hpath⟩ := h.placed vd hvd hroot
      have hle := ih p hlt hp
      rw [hpath, List.length_append, List.length_singleton]
      omega

/-- The directory at a path is the one that is found by the names. -/
theorem inj : ∀ vd, live vd → ∀ vd', live vd' → path vd = path vd' → vd = vd' := by
  intro vd
  induction vd using Nat.strong_induction_on with
  | _ vd ih =>
    intro hvd vd' hvd' heq
    by_cases hroot : vd = Virtual.root
    · subst hroot
      by_contra hroot'
      obtain ⟨p, name, -, -, -, hpath⟩ := h.placed vd' hvd' fun hr => hroot' hr.symm
      rw [h.rootPath, hpath] at heq
      simp at heq
    · obtain ⟨p, name, hplace, hp, hlt, hpath⟩ := h.placed vd hvd hroot
      have hroot' : vd' ≠ Virtual.root := by
        rintro rfl
        rw [h.rootPath, hpath] at heq
        simp at heq
      obtain ⟨p', name', hplace', hp', -, hpath'⟩ := h.placed vd' hvd' hroot'
      rw [hpath, hpath'] at heq
      obtain ⟨hpp, hn⟩ := List.append_inj' heq rfl
      obtain rfl := ih p hlt hp p' hp' hpp
      rw [List.singleton_inj.mp hn, ← h.inverse] at hplace
      rw [← h.inverse] at hplace'
      exact Option.some.inj (hplace.symm.trans hplace')

theorem path_eq_nil (hvd : live vd) : path vd = [] ↔ vd = Virtual.root := by
  constructor
  · exact fun hnil => h.inj vd hvd _ h.root.1 (hnil.trans h.rootPath.symm)
  · rintro rfl
    exact h.rootPath

/-- The directories on the way to the root are a directory and those on the way from its parent. -/
theorem prefix_iff (hvd : place vd = some (p, name)) (ha : live a) :
    path a <+: path vd ↔ a = vd ∨ path a <+: path p := by
  obtain ⟨hlive, -, -, hpath⟩ := h.place_spec hvd
  rw [hpath, List.prefix_concat_iff, ← hpath]
  exact or_congr_left ⟨h.inj a ha vd hlive, fun heq => by rw [heq]⟩

theorem not_prefix_parent (hvd : place vd = some (p, name)) : ¬ path vd <+: path p := by
  obtain ⟨-, -, -, hpath⟩ := h.place_spec hvd
  intro hpre
  have hle := hpre.length_le
  rw [hpath, List.length_append, List.length_singleton] at hle
  omega

theorem exists_prefix : ∀ vd, live vd → ∀ π, π <+: path vd → ∃ vd', live vd' ∧ path vd' = π := by
  intro vd
  induction vd using Nat.strong_induction_on with
  | _ vd ih =>
    intro hvd π hπ
    by_cases hroot : vd = Virtual.root
    · rw [hroot, h.rootPath, List.prefix_nil] at hπ
      exact ⟨vd, hvd, by rw [hroot, h.rootPath, hπ]⟩
    · obtain ⟨p, name, -, hp, hlt, hpath⟩ := h.placed vd hvd hroot
      rw [hpath, List.prefix_concat_iff] at hπ
      rcases hπ with rfl | hπ
      · exact ⟨vd, hvd, hpath⟩
      · exact ih p hlt hp π hπ

/-! ## Changes -/

/-- A directory is created at the end of the array of its parent. -/
theorem create (hp : live p) (hname : byName (p, name) = none) (hlive : ∀ a, live' a ↔ live a ∨ a = next)
    (hplace : place' = Function.update place next (some (p, name)))
    (hsubdirs : ∀ a, live' a → subdirs' a = if a = next then [] else if a = p then subdirs p ++ [next] else subdirs a)
    (hindex : ∀ a, live' a → index' a = if a = next then (subdirs p).length else index a) :
    Shape live' place' subdirs' index' (Function.update byName (p, name) (some next)) (next + 1)
      (Function.update path next (path p ++ [name])) := by
  have hnext : ∀ a, live a → a ≠ next := fun a ha => (h.bound a ha).ne
  have hold : ∀ {a k}, place a = some k → a ≠ next := fun ha => hnext _ (h.place_spec ha).1
  have hnot : place next = none := Option.eq_none_iff_forall_ne_some.mpr fun k hk => hold hk rfl
  have hpath : ∀ a, live a → Function.update path next (path p ++ [name]) a = path a := fun a ha =>
    update_of_ne (hnext a ha) ..
  subst hplace
  constructor
  case root =>
    rw [update_of_ne (hnext _ h.root.1)]
    exact ⟨(hlive _).mpr (Or.inl h.root.1), h.root.2⟩
  case rootPath =>
    rw [hpath _ h.root.1]
    exact h.rootPath
  case placed =>
    intro a ha hroot
    rcases (hlive a).mp ha with ha | rfl
    · obtain ⟨q, n, hq, hlq, hlt, hqp⟩ := h.placed a ha hroot
      refine ⟨q, n, by rwa [update_of_ne (hnext a ha)], (hlive q).mpr (Or.inl hlq), hlt, ?_⟩
      rw [hpath a ha, hpath q hlq, hqp]
    · refine ⟨p, name, update_self .., (hlive p).mpr (Or.inl hp), h.bound p hp, ?_⟩
      rw [update_self, hpath p hp]
  case dead =>
    intro a ha
    rw [hlive, not_or] at ha
    rw [update_of_ne ha.2, h.dead a ha.1]
  case bound =>
    intro a ha
    rcases (hlive a).mp ha with ha | rfl
    · exact (h.bound a ha).trans (Nat.lt_succ_self _)
    · exact Nat.lt_succ_self _
  case inverse => exact h.inverse.insert hname hnot
  case children =>
    intro q hq
    have hchild : ∀ a, (∃ n, Function.update place next (some (p, name)) a = some (q, n)) ↔
        (∃ n, place a = some (q, n)) ∨ a = next ∧ q = p := by
      intro a
      by_cases ha : a = next
      · subst ha
        simp [hnot, eq_comm]
      · simp [ha]
    have hsame : ∀ a, (∃ n, place a = some (q, n)) → index' a = index a := by
      rintro a ⟨n, ha⟩
      rw [hindex a ((hlive a).mpr (Or.inl (h.place_spec ha).1)), if_neg (hold ha)]
    rw [hsubdirs q hq]
    split_ifs with hqn hqp
    · refine holds_nil fun a ha => ?_
      rcases (hchild a).mp ha with ⟨n, hn⟩ | ⟨-, heq⟩
      · exact hnext q (h.place_spec hn).2.1 hqn
      · exact hnext q (heq ▸ hp) hqn
    · subst hqp
      refine (h.children q hp).push (fun hmem => hold hmem.choose_spec rfl) (fun a => by simp [hchild]) ?_ hsame
      rw [hindex next ((hlive _).mpr (Or.inr rfl)), if_pos rfl]
    · exact (h.children q (((hlive q).mp hq).resolve_right hqn)).congr (fun a => by simp [hchild, hqp]) hsame

/-- A directory without subdirectories is removed; the last one in the array of its parent takes its index. -/
theorem remove {top : ℕ} (hvd : place vd = some (p, name)) (hleaf : ∀ a n, place a ≠ some (vd, n))
    (htop : (subdirs p).getLast? = some top) (hlive : ∀ a, live' a ↔ live a ∧ a ≠ vd)
    (hplace : place' = Function.update place vd none)
    (hsubdirs : ∀ a, live' a → subdirs' a = if a = p then swapRemove (subdirs p) (index vd) else subdirs a)
    (hindex : ∀ a, live' a → index' a = if a = top then index vd else index a) :
    Shape live' place' subdirs' index' (Function.update byName (p, name) none) next path := by
  obtain ⟨-, hp, -, -⟩ := h.place_spec hvd
  obtain ⟨n, htopp⟩ := (h.children p hp).mem_iff.mp (List.mem_of_getLast? htop)
  subst hplace
  constructor
  case root =>
    have hne : Virtual.root ≠ vd := by
      rintro rfl
      rw [h.root.2] at hvd
      cases hvd
    rw [update_of_ne hne]
    exact ⟨(hlive _).mpr ⟨h.root.1, hne⟩, h.root.2⟩
  case rootPath => exact h.rootPath
  case placed =>
    intro a ha hroot
    obtain ⟨ha, hav⟩ := (hlive a).mp ha
    obtain ⟨q, n, hq, hlq, hrest⟩ := h.placed a ha hroot
    have hqv : q ≠ vd := by
      rintro rfl
      exact hleaf a n hq
    exact ⟨q, n, by rwa [update_of_ne hav], (hlive q).mpr ⟨hlq, hqv⟩, hrest⟩
  case dead =>
    intro a ha
    by_cases hav : a = vd
    · rw [hav, update_self]
    · rw [update_of_ne hav, h.dead a fun hl => ha ((hlive a).mpr ⟨hl, hav⟩)]
  case bound => exact fun a ha => h.bound a ((hlive a).mp ha).1
  case inverse => exact h.inverse.erase hvd
  case children =>
    intro q hq
    have hchild : ∀ a, (∃ n, Function.update place vd none a = some (q, n)) ↔ (∃ n, place a = some (q, n)) ∧ a ≠ vd := by
      intro a
      by_cases ha : a = vd
      · simp [ha]
      · simp [ha]
    have hkept : ∀ {a n}, place a = some (q, n) → a ≠ vd → live' a := fun ha hav =>
      (hlive _).mpr ⟨(h.place_spec ha).1, hav⟩
    have hlq := ((hlive q).mp hq).1
    rw [hsubdirs q hq]
    simp only [hchild]
    split_ifs with hqp
    · subst hqp
      refine (h.children q hlq).remove ⟨_, hvd⟩ htop (fun _ => Iff.rfl) (fun hne => ?_) fun a ha hav hat => ?_
      · rw [hindex top (hkept htopp hne), if_pos rfl]
      · rw [hindex a (hkept ha.choose_spec hav), if_neg hat]
    · -- the removed directory and the moved one are in another array
      have hnot : ∀ {a n}, place a = some (q, n) → a ≠ vd ∧ a ≠ top := by
        intro a n ha
        constructor
        · rintro rfl
          rw [hvd] at ha
          cases ha
          exact hqp rfl
        · rintro rfl
          rw [htopp] at ha
          cases ha
          exact hqp rfl
      refine (h.children q hlq).congr (fun a => and_iff_left_of_imp fun ha => (hnot ha.choose_spec).1) fun a ha => ?_
      obtain ⟨hav, hat⟩ := hnot ha.choose_spec
      rw [hindex a (hkept ha.choose_spec hav), if_neg hat]

end Shape

end ZFS.Virtual
