import ZlomekFS.Proofs.HashFile
import ZlomekFS.Spec.HashTable

/-! The hash table in memory is a finite map and counts its slots, when its clients fill the slots they insert
and clear the elements they remove. -/

namespace ZFS
open Probing Hashed

/-! ## Sizes -/

/-- None of the odd numbers from 3 on, `n` of them, divides `p`. -/
def oddDivisorFree (p : ℕ) : ℕ → Bool
  | 0 => true
  | n + 1 => (0).blt (p % (2 * n + 3)) && oddDivisorFree p n

theorem not_dvd_of_oddDivisorFree {p : ℕ} (n : ℕ) (h : oddDivisorFree p n = true) {q : ℕ} (hq : 2 * q + 3 < 2 * n + 3) :
    ¬ 2 * q + 3 ∣ p := by
  induction n with
  | zero => omega
  | succ n ih =>
    simp only [oddDivisorFree, Bool.and_eq_true, Nat.blt_eq] at h
    rcases Nat.lt_succ_iff_lt_or_eq.mp (by omega : q < n + 1) with hlt | rfl
    · exact ih h.2 (by omega)
    · exact fun hdvd => h.1.ne' (Nat.mod_eq_zero_of_dvd hdvd)

theorem prime_of_mem_primes {p : ℕ} (hp : p ∈ primes) : p.Prime := by
  have hall : ∀ p ∈ primes, p % 2 = 1 ∧ 3 ≤ p ∧ oddDivisorFree p (2 ^ (p.log2 / 2)) = true := by decide +kernel
  obtain ⟨hodd, h3, hfree⟩ := hall p hp
  refine Nat.prime_def_le_sqrt.mpr ⟨by omega, fun q hq hle hdvd => ?_⟩
  -- a divisor up to the root is odd and one of those that were tried
  have hlt : q * q < 2 ^ (p.log2 / 2 + 1) * 2 ^ (p.log2 / 2 + 1) := by
    refine (Nat.le_sqrt.mp hle).trans_lt (Nat.lt_log2_self.trans_le ?_)
    rw [← pow_add]
    exact Nat.pow_le_pow_right (by decide) (by omega)
  have hq' : q < 2 ^ (p.log2 / 2 + 1) := lt_of_mul_self_lt_mul_self₀ (Nat.zero_le _) hlt
  have hqodd : q % 2 = 1 := by
    obtain ⟨c, rfl⟩ := hdvd
    exact Nat.odd_iff.mp (Nat.odd_mul.mp (Nat.odd_iff.mpr hodd)).1
  obtain ⟨r, rfl⟩ : ∃ r, q = 2 * r + 3 := ⟨(q - 3) / 2, by omega⟩
  exact not_dvd_of_oddDivisorFree _ hfree (by rw [pow_succ] at hq'; omega) hdvd

theorem le_of_mem_primes {p : ℕ} (hp : p ∈ primes) : 7 ≤ p ∧ p ≤ MAX_PRIME := by
  have hall : ∀ p ∈ primes, 7 ≤ p ∧ p ≤ MAX_PRIME := by decide
  exact hall p hp

theorem searchPrime_spec {n : ℕ} (fuel : ℕ) : ∀ {low high : ℕ}, low ≤ high → high < 29 → high - low ≤ fuel →
    n ≤ primes.getD high 0 → searchPrime n fuel low high < 29 ∧ n ≤ primes.getD (searchPrime n fuel low high) 0 := by
  induction fuel with
  | zero =>
    intro low high hle hlt hf hn
    obtain rfl : low = high := by omega
    exact ⟨hlt, hn⟩
  | succ fuel ih =>
    intro low high hle hlt hf hn
    rw [searchPrime]
    split_ifs with heq hmid
    · exact ⟨heq ▸ hlt, heq ▸ hn⟩
    · exact ih (by omega) hlt (by omega) hn
    · exact ih (by omega) (by omega) (by omega) (by omega)

theorem getHigherPrime_some {n : ℕ} (hn : n ≤ MAX_PRIME) : ∃ p ∈ primes, getHigherPrime n = some p ∧ n ≤ p := by
  obtain ⟨hlt, hle⟩ := searchPrime_spec (n := n) 28 (Nat.zero_le 28) (by decide) le_rfl hn
  refine ⟨_, ?_, if_neg hn.not_gt, hle⟩
  rw [List.getD_eq_getElem?_getD, List.getElem?_eq_getElem hlt]
  exact List.getElem_mem hlt

section HashTable
variable {κ α : Type} {P : HtabParams κ α} {size : ℕ} {k : κ}

/-- The places a probe visits. -/
def HtabParams.spot (P : HtabParams κ α) (size : ℕ) (k : κ) (j : ℕ) : ℕ := (P.next size k)^[j] (P.hash k % size)

theorem visits_spot (P : HtabParams κ α) (hsize : size ∈ primes) (k : κ) : Visits (P.spot size k) size := by
  obtain ⟨h7, -⟩ := le_of_mem_primes hsize
  have hstep : P.hash k % (size - 2) < size - 2 := Nat.mod_lt _ (by omega)
  refine visits_next (Nat.mod_lt _ (by omega)) (by omega) ?_
  exact ((prime_of_mem_primes hsize).coprime_iff_not_dvd.mpr (Nat.not_dvd_of_pos_of_lt (by omega) (by omega))).symm

namespace Htab
variable {h h' : Htab α} {m : κ → Option α} {e i : ℕ} {x : α}

/-! ## Expanding -/

/-- A table that counts `e` slots too many. -/
structure Shape (P : HtabParams κ α) (h : Htab α) (e : ℕ) : Prop where
  size : h.size ∈ primes
  unique : Unique P.key h.size h.table
  counted : ∃ n, h.nElements = n + e ∧ Counted h.table h.size n h.nDeleted
  load : 3 * h.nElements < 2 * h.size + 3

/-- The map the table stands for. -/
def Maps (P : HtabParams κ α) (h : Htab α) (m : κ → Option α) : Prop :=
  Stores P.key (P.spot h.size) h.size h.table m

section Shapes
variable (hs : h.Shape P e)
include hs

theorem Shape.bounds : 7 ≤ h.size ∧ h.size ≤ 2147483647 ∧ 3 * h.nElements < 2 * h.size + 3 := by
  obtain ⟨h7, hmax⟩ := le_of_mem_primes hs.size
  exact ⟨h7, hmax, hs.load⟩

theorem Shape.exists_empty : ∃ i < h.size, h.table i = .empty := by
  obtain ⟨n, hn, hcounted⟩ := hs.counted
  have hb := hs.bounds
  exact hcounted.exists_empty (by omega)

theorem Shape.live_eq : sub32 h.nElements h.nDeleted = Nat.count (fun i => (h.table i).isElem) h.size + e := by
  obtain ⟨n, hn, hcounted⟩ := hs.counted
  have hlive := hcounted.live
  have hb := hs.bounds
  rw [sub32_of_le (by omega) (by omega)]
  omega

variable [DecidableEq κ]

theorem Shape.copy {size n : ℕ} (hsize : size ∈ primes) (hn : n ≤ h.size)
    (hroom : Nat.count (fun i => (h.table i).isElem) h.size < size) :
    ∃ table, (List.range n).foldlM (fun table i => htabCopy P size table (h.table i)) (fun _ => .empty) = some table ∧
      Copied P.key (P.spot size) size h.table n table := by
  induction n with
  | zero => exact ⟨_, rfl, copied_zero _⟩
  | succ n ih =>
    obtain ⟨table, hfold, hcopied⟩ := ih (by omega)
    rw [List.range_succ, List.foldlM_append, hfold]
    simp only [Option.bind_eq_bind, Option.bind_some, List.foldlM_cons, List.foldlM_nil, Option.pure_def, Option.bind_fun_some]
    cases hx : h.table n with
    | empty => exact ⟨table, rfl, hcopied.skip (by rw [hx]; rfl)⟩
    | deleted => exact ⟨table, rfl, hcopied.skip (by rw [hx]; rfl)⟩
    | elem x =>
      obtain ⟨idx, hidx, hwalk, hempty, hchain⟩ := exists_emptySlot (visits_spot P hsize (P.key x))
        (hcopied.counted.exists_empty ((Nat.count_monotone _ (by omega)).trans_lt hroom))
      exact ⟨_, by rw [htabCopy, htabFindEmptySlot, hwalk]; rfl, hcopied.put hs.unique hn hx hidx hempty hchain⟩

/-- An expansion aborts, or the new table has the same elements and room for more. -/
theorem Shape.expand :
    (h.expand P = none ∧ MAX_PRIME < 2 * (Nat.count (fun i => (h.table i).isElem) h.size + e) + 1) ∨
      ∃ h', h.expand P = some h' ∧ h'.Shape P e ∧ 3 * h'.nElements < 2 * h'.size ∧
        (∀ x, Has h'.table h'.size x ↔ Has h.table h.size x) ∧ ∀ m, h.Maps P m → h'.Maps P m := by
  obtain ⟨n, hn, hcounted⟩ := hs.counted
  have hb := hs.bounds
  have hlive := hcounted.live
  rw [Htab.expand, hs.live_eq, u32_of_lt (by omega)]
  by_cases hmax : 2 * (Nat.count (fun i => (h.table i).isElem) h.size + e) + 1 ≤ MAX_PRIME
  · right
    rw [Nat.mul_comm] at hmax
    obtain ⟨size, hsize, hprime, hle⟩ := getHigherPrime_some hmax
    obtain ⟨table, hfold, hcopied⟩ := hs.copy hsize le_rfl (by omega)
    rw [hprime, Option.bind_some, hfold]
    refine ⟨_, rfl, ⟨hsize, ?_, ⟨_, rfl, hcopied.counted⟩, by dsimp only; omega⟩, by dsimp only; omega,
      hcopied.has_iff, fun m hm => hcopied.stores hm.mem⟩
    obtain ⟨m, -, hm⟩ := hcopied.stored
    exact hm.unique
  · left
    rw [getHigherPrime, if_pos (by omega)]
    exact ⟨rfl, by omega⟩

theorem Shape.grow (hg : h.grow P = some h') :
    h'.Shape P e ∧ 3 * h'.nElements < 2 * h'.size ∧
      (∀ x, Has h'.table h'.size x ↔ Has h.table h.size x) ∧ ∀ m, h.Maps P m → h'.Maps P m := by
  have hb := hs.bounds
  unfold Htab.grow at hg
  rw [u32_of_lt (by omega), u32_of_lt (by omega)] at hg
  split_ifs at hg with hload
  · rcases hs.expand with ⟨hnone, -⟩ | ⟨h1, hsome, hrest⟩
    · rw [hnone] at hg
      cases hg
    · obtain rfl : h1 = h' := Option.some.inj (hsome.symm.trans hg)
      exact hrest
  · obtain rfl := Option.some.inj hg
    exact ⟨hs, by omega, fun _ => Iff.rfl, fun _ hm => hm⟩

end Shapes

/-! ## The invariant -/

/-- Filling a slot that is already counted. -/
theorem Shape.store_counted (hs : h.Shape P (e + 1)) (hi : i < h.size) (hempty : h.table i = .empty) (x : α) :
    ∃ n, h.nElements = n + e ∧ Counted (h.store i x).table h.size n h.nDeleted := by
  obtain ⟨n, hn, hcounted⟩ := hs.counted
  exact ⟨n + 1, by omega, hcounted.update hi _ (by rw [hempty]; rfl) (by rw [hempty]; rfl)⟩

structure Inv (P : HtabParams κ α) (h : Htab α) (m : κ → Option α) : Prop where
  shape : h.Shape P 0
  maps : h.Maps P m

/-- The counters are those of the slots, and a probe meets an empty slot. -/
def Right (h : Htab α) : Prop :=
  h.nElements = Nat.count (fun i => (h.table i).isElem) h.size + h.nDeleted ∧
    h.nDeleted = Nat.count (fun i => (h.table i).isDeleted) h.size ∧ ∃ i < h.size, h.table i = .empty

theorem Inv.right (hinv : h.Inv P m) : h.Right := by
  obtain ⟨n, hn, hcounted⟩ := hinv.shape.counted
  exact ⟨by rw [hcounted.live]; exact hn, hcounted.deleted, hinv.shape.exists_empty⟩

theorem Shape.inv_store (hs : h.Shape P 1) (hi : i < h.size) (hempty : h.table i = .empty)
    (hmaps : (h.store i x).Maps P m) : (h.store i x).Inv P m :=
  ⟨⟨hs.size, hmaps.unique, hs.store_counted hi hempty x, hs.load⟩, hmaps⟩

theorem Inv.empty (hinv : h.Inv P m) (hzero : h.nElements = 0) : h.empty.Inv P fun _ => none := by
  obtain ⟨n, hn, hcounted⟩ := hinv.shape.counted
  have hlive := hcounted.live
  have hdel : h.nDeleted = 0 := by omega
  refine ⟨⟨hinv.shape.size, unique_empty, ⟨0, hzero, ?_⟩, hinv.shape.load⟩, stores_empty⟩
  rw [Htab.empty, hdel]
  exact counted_empty h.size

theorem Right.of_empty (hright : h.empty.Right) : h.nElements = 0 := by
  have hzero := counted_empty (α := α) h.size
  refine hright.1.trans ?_
  rw [hright.2.1.trans hzero.deleted.symm]
  exact hzero.live

theorem inv_create {n : ℕ} (hc : Htab.create n = some h) : h.Inv P fun _ => none := by
  obtain ⟨p, hp, rfl⟩ := Option.map_eq_some_iff.mp hc
  by_cases hn : n ≤ MAX_PRIME
  · obtain ⟨p', hmem, hp', -⟩ := getHigherPrime_some hn
    obtain rfl := Option.some.inj (hp'.symm.trans hp)
    exact ⟨⟨hmem, unique_empty, ⟨0, rfl, counted_empty _⟩, by dsimp only; omega⟩, stores_empty⟩
  · rw [getHigherPrime, if_pos (by omega)] at hp
    cases hp

variable [DecidableEq κ]

/-! ## Inserting -/

theorem insertSlot_cases (hi : h.insertSlot P k = some (h', i)) :
    ∃ h1, h.grow P = some h1 ∧
      ((∃ d, h1.findSlot P k = some (i, d) ∧ (h1.table i).isEmpty = false ∧ h' = h1) ∨
        (∃ j, h1.findSlot P k = some (j, some i) ∧ h1.table j = .empty ∧
          h' = { h1 with nDeleted := sub32 h1.nDeleted 1, table := Function.update h1.table i .empty }) ∨
        (h1.findSlot P k = some (i, none) ∧ h1.table i = .empty ∧
          h' = { h1 with nElements := u32 (h1.nElements + 1) })) := by
  obtain ⟨h1, hg, hmap⟩ := Option.bind_eq_some_iff.mp hi
  obtain ⟨⟨j, d⟩, hfind, heq⟩ := Option.map_eq_some_iff.mp hmap
  refine ⟨h1, hg, ?_⟩
  dsimp only at heq
  split_ifs at heq with hempty
  · rw [Entry.isEmpty_iff] at hempty
    cases d with
    | some d =>
      obtain ⟨rfl, rfl⟩ := Prod.mk.inj heq
      exact Or.inr (Or.inl ⟨j, hfind, hempty, rfl⟩)
    | none =>
      obtain ⟨rfl, rfl⟩ := Prod.mk.inj heq
      exact Or.inr (Or.inr ⟨hfind, hempty, rfl⟩)
  · obtain ⟨rfl, rfl⟩ := Prod.mk.inj heq
    exact Or.inl ⟨d, hfind, by simpa using hempty, rfl⟩

theorem Shape.found {d : Option ℕ} (hs : h.Shape P e) (hfind : h.findSlot P k = some (i, d)) :
    Found P.key (P.spot h.size k) h.size h.table k i d := by
  obtain ⟨j, d', hwalk, hfound⟩ := exists_found P.key k (visits_spot P hs.size k) hs.exists_empty
  obtain ⟨rfl, rfl⟩ := Prod.mk.inj (Option.some.inj (hwalk.symm.trans hfind))
  exact hfound

/-- The slot that `INSERT` returns has the element with the key, or it is empty and already counted. -/
theorem Shape.insertSlot (hs : h.Shape P e) (hi : h.insertSlot P k = some (h', i)) :
    i < h'.size ∧
      ((∃ y, h'.table i = .elem y ∧ P.key y = k ∧ Has h.table h.size y ∧ h'.Shape P e ∧
          ∀ m, h.Maps P m → h'.Maps P m ∧ m k = some y) ∨
        (h'.table i = .empty ∧ h'.Shape P (e + 1) ∧
          ∀ m x, P.key x = k → h.Maps P m → (h'.store i x).Maps P (Function.update m k (some x)) ∧ m k = none)) := by
  obtain ⟨h1, hg, hcases⟩ := insertSlot_cases hi
  obtain ⟨hs1, hload, hhas, hmaps⟩ := hs.grow hg
  obtain ⟨n, hn, hcounted⟩ := hs1.counted
  have hb := hs1.bounds
  rcases hcases with ⟨d, hfind, hne, rfl⟩ | ⟨j, hfind, hempty, rfl⟩ | ⟨hfind, hempty, rfl⟩
  · have hfound := hs1.found hfind
    rcases hfound.stop with hempty | ⟨y, hy, rfl⟩
    · rw [hempty] at hne
      cases hne
    · exact ⟨hfound.lt, Or.inl ⟨y, hy, rfl, (hhas y).mp ⟨i, hfound.lt, hy⟩, hs1, fun m hm =>
        ⟨hmaps m hm, (hmaps m hm).of_elem hfound.lt hy⟩⟩⟩
  · have hfound := hs1.found hfind
    obtain ⟨hlt, hdel, hchain⟩ := hfound.deleted i rfl
    have hpos := hcounted.deleted_pos hlt hdel
    have hlive := hcounted.live
    rw [sub32_of_le hpos (by omega)]
    refine ⟨hlt, Or.inr ⟨Function.update_self .., ⟨hs1.size, fun a ha b hb x y hx hy => ?_, ⟨n - 1, by dsimp only; omega, ?_⟩,
      hs1.load⟩, fun m x hx hm => ?_⟩⟩
    · dsimp only at hx hy
      rw [Function.update_apply] at hx hy
      split_ifs at hx hy
      exact hs1.unique a ha b hb x y hx hy
    · refine hcounted.update hlt .empty ?_ ?_
      · rw [hdel]
        exact Nat.sub_add_cancel (by omega)
      · rw [hdel]
        exact Nat.sub_add_cancel hpos
    · rcases hfound.slot (hmaps m hm) with ⟨-, hnone⟩ | ⟨y, hy, -⟩
      · subst hx
        refine ⟨?_, hnone⟩
        have hput := (hmaps m hm).put hlt hchain (Or.inr ⟨fun y => by simp [hdel], hnone⟩)
        rwa [← Function.update_idem (v := .empty)] at hput
      · rw [hempty] at hy
        cases hy
  · have hfound := hs1.found hfind
    rw [u32_of_lt (by omega)]
    refine ⟨hfound.lt, Or.inr ⟨hempty, ⟨hs1.size, hs1.unique, ⟨n, by dsimp only; omega, hcounted⟩, by dsimp only; omega⟩,
      fun m x hx hm => ?_⟩⟩
    rcases hfound.slot (hmaps m hm) with ⟨-, hnone⟩ | ⟨y, hy, -⟩
    · subst hx
      exact ⟨(hmaps m hm).put hfound.lt hfound.chain (Or.inr ⟨fun y => by simp [hempty], hnone⟩), hnone⟩
    · rw [hempty] at hy
      cases hy

/-! ## The calls -/

theorem Inv.store_elem (hinv : h.Inv P m) (hi : i < h.size) {y : α} (hy : h.table i = .elem y) (hkey : P.key y = P.key x) :
    (h.store i x).Inv P (Function.update m (P.key x) (some x)) := by
  have hmaps := hinv.maps.put hi (hkey ▸ hinv.maps.chain i hi y hy) (Or.inl ⟨y, hy, hkey⟩)
  obtain ⟨n, hn, hcounted⟩ := hinv.shape.counted
  refine ⟨⟨hinv.shape.size, hmaps.unique, ⟨n, hn, ?_⟩, hinv.shape.load⟩, hmaps⟩
  exact hcounted.update hi _ (by rw [hy]; rfl) (by rw [hy]; rfl)

theorem Inv.clearSlot (hinv : h.Inv P m) (hi : i < h.size) (hx : h.table i = .elem x) :
    (h.clearSlot i).Inv P (Function.update m (P.key x) none) := by
  have hmaps := hinv.maps.remove hi hx
  obtain ⟨n, hn, hcounted⟩ := hinv.shape.counted
  have hlive := hcounted.live
  have hb := hinv.shape.bounds
  refine ⟨⟨hinv.shape.size, hmaps.unique, ⟨n, hn, ?_⟩, hinv.shape.load⟩, hmaps⟩
  simp only [Htab.clearSlot, u32_of_lt (by omega : h.nDeleted + 1 < 2 ^ 32)]
  exact hcounted.update hi _ (by rw [hx]; rfl) (by rw [hx]; rfl)

end Htab

/-! ## Runs -/

variable [DecidableEq κ]

/-- When a call keeps the counters right. -/
def HtabCall.Safe (P : HtabParams κ α) (s : Htab α × (κ → Option α)) : HtabCall α → Prop
  | .insert _ | .clear _ => True
  | .insertTwice x => s.2 (P.key x) ≠ none
  | .refill x => s.2 (P.key x) = none
  | .empty => s.1.nElements = 0

section Steps
variable {s s' : Htab α × (κ → Option α)} {x : α}

theorem inv_insert (hinv : s.1.Inv P s.2) (hstep : htabStep P s (.insert x) = some s') : s'.1.Inv P s'.2 := by
  obtain ⟨⟨h, i⟩, hslot, rfl⟩ := Option.map_eq_some_iff.mp hstep
  rcases hinv.shape.insertSlot hslot with ⟨hi, ⟨y, hy, hkey, -, hs, hmaps⟩ | ⟨hempty, hs, hmaps⟩⟩
  · exact Htab.Inv.store_elem ⟨hs, (hmaps _ hinv.maps).1⟩ hi hy hkey
  · exact hs.inv_store hi hempty (hmaps _ x rfl hinv.maps).1

/-- A second `INSERT` counts the slot of a new element once more. -/
theorem insertTwice_spec (hinv : s.1.Inv P s.2) (hstep : htabStep P s (.insertTwice x) = some s') :
    (s.2 (P.key x) ≠ none ∧ s'.1.Inv P s'.2) ∨ (s.2 (P.key x) = none ∧ ¬ s'.1.Right) := by
  obtain ⟨⟨h, i⟩, hslot, hrest⟩ := Option.bind_eq_some_iff.mp hstep
  rcases hinv.shape.insertSlot hslot with ⟨hi, ⟨y, hy, hkey, -, hs, hmaps⟩ | ⟨hempty, hs, hmaps⟩⟩
  · rw [if_pos (by rw [hy]; rfl)] at hrest
    obtain rfl := Option.some.inj hrest
    obtain ⟨hm, hsome⟩ := hmaps _ hinv.maps
    exact Or.inl ⟨by simp [hsome], hs, hm⟩
  · rw [if_neg (by rw [hempty]; simp [Entry.isElem])] at hrest
    obtain ⟨⟨h2, j⟩, hslot2, rfl⟩ := Option.map_eq_some_iff.mp hrest
    obtain ⟨hm, hnone⟩ := hmaps _ x rfl hinv.maps
    refine Or.inr ⟨hnone, ?_⟩
    rcases hs.insertSlot hslot2 with ⟨hj, ⟨y, -, hkey, ⟨p, hp, hpy⟩, -⟩ | ⟨hempty2, hs2, -⟩⟩
    · have hne : p ≠ i := fun hpi => by
        rw [hpi, hempty] at hpy
        cases hpy
      have hpx : (h.store i x).table p = .elem y := (Function.update_of_ne hne ..).trans hpy
      exact absurd (hm.unique p hp i hi y x hpx (Function.update_self ..) hkey) hne
    · obtain ⟨n, hn, hcounted⟩ := hs2.store_counted hj hempty2 x
      intro hright
      have hlive := hcounted.live
      have := hright.1
      simp only [Htab.store] at *
      omega

/-- Filling the slot that was cleared leaves it counted as deleted. -/
theorem refill_spec (hinv : s.1.Inv P s.2) (hstep : htabStep P s (.refill x) = some s') :
    (s.2 (P.key x) = none ∧ s'.1.Inv P s'.2) ∨ (s.2 (P.key x) ≠ none ∧ ¬ s'.1.Right) := by
  obtain ⟨⟨h, i⟩, hslot, rfl⟩ := Option.map_eq_some_iff.mp hstep
  rcases hinv.shape.insertSlot hslot with ⟨hi, ⟨y, hy, -, -, hs, hmaps⟩ | ⟨hempty, hs, hmaps⟩⟩
  · refine Or.inr ⟨by simp [(hmaps _ hinv.maps).2], fun hright => ?_⟩
    obtain ⟨n, hn, hcounted⟩ := hs.counted
    have hlive := hcounted.live
    have hb := hs.bounds
    have hdeleted := (hcounted.update hi (.elem x) (by rw [hy]; rfl) (by rw [hy]; rfl)).deleted
    have hcount := hright.2.1
    simp only [hy, Entry.isElem, if_true, Htab.store, Htab.clearSlot, Function.update_idem,
      u32_of_lt (by omega : h.nDeleted + 1 < 2 ^ 32)] at hcount
    omega
  · obtain ⟨hm, hnone⟩ := hmaps _ x rfl hinv.maps
    refine Or.inl ⟨hnone, ?_⟩
    dsimp only
    rw [hempty]
    exact hs.inv_store hi hempty hm

theorem htabStep_spec {c : HtabCall α} (hinv : s.1.Inv P s.2) (hstep : htabStep P s c = some s') :
    (c.Safe P s ∧ s'.1.Inv P s'.2) ∨ (¬ c.Safe P s ∧ ¬ s'.1.Right) := by
  cases c with
  | insert x => exact Or.inl ⟨trivial, inv_insert hinv hstep⟩
  | clear i =>
    cases hx : s.1.table i with
    | elem x =>
      simp only [htabStep, hx] at hstep
      split_ifs at hstep with hi
      obtain rfl := Option.some.inj hstep
      exact Or.inl ⟨trivial, hinv.clearSlot hi hx⟩
    | empty => simp [htabStep, hx] at hstep
    | deleted => simp [htabStep, hx] at hstep
  | insertTwice x => simpa only [HtabCall.Safe, not_not] using insertTwice_spec hinv hstep
  | refill x => exact refill_spec hinv hstep
  | empty =>
    obtain rfl := Option.some.inj hstep
    by_cases hzero : s.1.nElements = 0
    · exact Or.inl ⟨hzero, hinv.empty hzero⟩
    · exact Or.inr ⟨hzero, fun hright => hzero hright.of_empty⟩

/-- The counters stay right in exactly the runs in which no handle is inserted twice, no slot is filled again after
it was cleared and no table with counted slots is emptied. -/
theorem htab_right_iff {n : ℕ} {h : Htab α} (hc : Htab.create n = some h) (cs : List (HtabCall α)) :
    (∀ s ∈ Runs.visited (htabStep P) (h, fun _ => none) cs, s.1.Right) ↔
      ∀ x ∈ Runs.taken (htabStep P) (h, fun _ => none) cs, x.2.Safe P x.1 := by
  have hinv : h.Inv P fun _ => none := Htab.inv_create hc
  refine Runs.visited_iff_taken (I := fun s => s.1.Inv P s.2) (fun s c s' hs _ hsafe hstep => ?_)
    (fun s c s' hs _ hstep => ?_) cs _ hinv hinv.right
  · rcases htabStep_spec hs hstep with ⟨-, hs'⟩ | ⟨hno, -⟩
    · exact hs'
    · exact absurd hsafe hno
  · rcases htabStep_spec hs hstep with ⟨hsafe, hs'⟩ | ⟨hno, hno'⟩
    · exact iff_of_true hs'.right hsafe
    · exact iff_of_false hno' hno

/-! ## The finite map -/

theorem Htab.find_eq_findSlot (h : Htab α) (k : κ) : h.find P k = (h.findSlot P k).map fun r => h.table r.1 :=
  (Option.map_map ..).symm.trans ((congrArg (Option.map h.table) (walkBy_fst ..)).trans (Option.map_map ..))

theorem Htab.Inv.find_eq {h : Htab α} {m : κ → Option α} (hinv : h.Inv P m) (k : κ) :
    h.find P k = some ((m k).elim .empty .elem) := by
  obtain ⟨i, d, hwalk, hfound⟩ := exists_found P.key k (visits_spot P hinv.shape.size k) hinv.shape.exists_empty
  rw [find_eq_findSlot, show h.findSlot P k = _ from hwalk]
  rcases hfound.slot hinv.maps with ⟨hempty, hnone⟩ | ⟨x, hx, -, hsome⟩
  · simp [hempty, hnone]
  · simp [hx, hsome]

/-- The calls of a client that fills every slot it inserts and clears every element it removes. -/
def HtabCall.Plain : HtabCall α → Prop
  | .insert _ | .clear _ => True
  | _ => False

structure Implements (P : HtabParams κ α) (h : Htab α) (m : κ → Option α) : Prop where
  find : ∀ k, h.find P k = some ((m k).elim .empty .elem)
  visits : ∀ k, Visits (P.spot h.size k) h.size
  expand : ∀ h', h.expand P = some h' → (∀ x, Has h'.table h'.size x ↔ Has h.table h.size x) ∧
    ∀ k, h'.find P k = h.find P k ∧ Visits (P.spot h'.size k) h'.size
  insert : ∀ x, (∃ s', htabStep P (h, m) (.insert x) = some s') ∨
    MAX_PRIME < 2 * Nat.count (fun i => (h.table i).isElem) h.size + 1

theorem Htab.Inv.implements {h : Htab α} {m : κ → Option α} (hinv : h.Inv P m) : Implements P h m := by
  refine ⟨hinv.find_eq, visits_spot P hinv.shape.size, fun h' hexp => ?_, fun x => ?_⟩
  · rcases hinv.shape.expand with ⟨hnone, -⟩ | ⟨h1, hsome, hs, -, hhas, hmaps⟩
    · rw [hnone] at hexp
      cases hexp
    · obtain rfl := Option.some.inj (hsome.symm.trans hexp)
      have hinv' : h1.Inv P m := ⟨hs, hmaps m hinv.maps⟩
      exact ⟨hhas, fun k => ⟨by rw [hinv'.find_eq, hinv.find_eq], visits_spot P hs.size k⟩⟩
  · by_cases hmax : MAX_PRIME < 2 * Nat.count (fun i => (h.table i).isElem) h.size + 1
    · exact Or.inr hmax
    left
    obtain ⟨h1, hg⟩ : ∃ h1, h.grow P = some h1 := by
      unfold Htab.grow
      split_ifs
      · rcases hinv.shape.expand with ⟨-, habort⟩ | ⟨h1, hsome, -⟩
        · exact absurd habort hmax
        · exact ⟨h1, hsome⟩
      · exact ⟨h, rfl⟩
    obtain ⟨hs, -⟩ := hinv.shape.grow hg
    obtain ⟨i, d, hfind, -⟩ := exists_found P.key (P.key x) (visits_spot P hs.size (P.key x)) hs.exists_empty
    simp only [htabStep, Htab.insertSlot, hg, Option.bind_some, show h1.findSlot P (P.key x) = _ from hfind,
      Option.map_some]
    exact ⟨_, rfl⟩

/-- A table of any size, used only by inserting and filling slots and by clearing elements, is the finite map of
those calls. -/
theorem htab_implements {s : Htab α × (κ → Option α)}
    (h : Runs.Reach (htabStep P) (fun _ c => c.Plain) (fun s => ∃ n, Htab.create n = some s.1 ∧ s.2 = fun _ => none) s) :
    Implements P s.1 s.2 := by
  refine Htab.Inv.implements (h.inv (I := fun s => s.1.Inv P s.2) (fun s hs => ?_) fun s c s' hs hplain hstep => ?_)
  · obtain ⟨n, hc, hm⟩ := hs
    exact hm ▸ Htab.inv_create hc
  · rcases htabStep_spec hs hstep with ⟨-, hs'⟩ | ⟨hno, -⟩
    · exact hs'
    · cases c with
      | insert x => exact absurd trivial hno
      | clear i => exact absurd trivial hno
      | _ => exact hplain.elim

end Steps
end HashTable

def idNumbers : HtabParams ℕ ℕ := ⟨id, id⟩

/-- The table that is created for five elements. -/
def sevenSlots : Htab ℕ × (ℕ → Option ℕ) := (⟨7, 0, 0, fun _ => .empty⟩, fun _ => none)

/-- The numbers 9 and 2 collide; the slot of 9 is cleared and used for 16; that of 3 is still deleted when the table is
expanded. -/
def expandingCalls : List (HtabCall ℕ) :=
  [.insert 9, .insert 2, .clear 2, .insert 16, .insert 3, .insert 4, .insert 6, .clear 3, .insert 1]

theorem htab_implements_inserted :
    ∃ s, Runs.run (htabStep idNumbers) sevenSlots expandingCalls = some s ∧ s.1.size = 13 ∧ s.1.nElements = 5 ∧
      Implements idNumbers s.1 s.2 := by
  obtain ⟨s, hs, hsize, hcount⟩ : ∃ s, Runs.run (htabStep idNumbers) sevenSlots expandingCalls = some s ∧
      s.1.size = 13 ∧ s.1.nElements = 5 := ⟨_, rfl, rfl, rfl⟩
  refine ⟨s, hs, hsize, hcount, htab_implements (Runs.Reach.run (.init ⟨5, rfl, rfl⟩) expandingCalls ?_ hs)⟩
  exact ⟨trivial, trivial, trivial, trivial, trivial, trivial, trivial, trivial, trivial, trivial⟩

theorem htab_right_iff_created :
    (∀ s ∈ Runs.visited (htabStep idNumbers) sevenSlots [.insert 9, .clear 2], s.1.Right) ↔
      ∀ x ∈ Runs.taken (htabStep idNumbers) sevenSlots [.insert 9, .clear 2],
        x.2.Safe idNumbers x.1 :=
  htab_right_iff (n := 5) rfl [.insert 9, .clear 2]

/-- The counters after a name was read twice, after a new handle and after an emptied table. -/
theorem htab_miscounted :
    (∃ s, Runs.run (htabStep idNumbers) sevenSlots [.insert 9, .refill 9] = some s ∧ ¬ s.1.Right) ∧
    (∃ s, Runs.run (htabStep idNumbers) sevenSlots [.insertTwice 9] = some s ∧ ¬ s.1.Right) ∧
    ∃ s, Runs.run (htabStep idNumbers) sevenSlots [.insert 9, .empty] = some s ∧ ¬ s.1.Right := by
  refine ⟨⟨_, rfl, fun h => ?_⟩, ⟨_, rfl, fun h => ?_⟩, _, rfl, fun h => ?_⟩
  · exact absurd h.2.1 (by decide)
  · exact absurd h.1 (by decide)
  · exact absurd h.1 (by decide)

end ZFS
