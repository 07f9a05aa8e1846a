import ZlomekFS.Lib.Hashed
import ZlomekFS.Lib.Runs
import ZlomekFS.Spec.HashFile

/-! The hash file is a finite map: its slots are a table with linear probing, and insertion, deletion and copying
to a file of another size keep what the table stands for. -/

namespace ZFS
open Probing Hashed

section HashFile
variable {κ β ρ : Type} {P : HFileParams κ β}

/-! ## Slots -/

def Slot.entry (s : Slot β ρ) : Entry (β × ρ) :=
  match s.status with
  | .empty => .empty
  | .deleted => .deleted
  | .valid => .elem (s.base, s.rest)

def entries (slots : ℕ → Slot β ρ) (i : ℕ) : Entry (β × ρ) := (slots i).entry

variable {slots : ℕ → Slot β ρ} {size idx : ℕ} {m : Contents κ β ρ}

@[simp] theorem isEmpty_entries (i : ℕ) : (entries slots i).isEmpty = decide ((slots i).status = .empty) := by
  unfold entries Slot.entry
  cases (slots i).status <;> rfl

@[simp] theorem isDeleted_entries (i : ℕ) : (entries slots i).isDeleted = decide ((slots i).status = .deleted) := by
  unfold entries Slot.entry
  cases (slots i).status <;> rfl

theorem isElem_entries (i : ℕ) : (entries slots i).isElem = decide ((slots i).status = .valid) := by
  unfold entries Slot.entry
  cases (slots i).status <;> rfl

theorem entries_eq_empty {i : ℕ} : entries slots i = .empty ↔ (slots i).status = .empty := by
  rw [← Entry.isEmpty_iff, isEmpty_entries, decide_eq_true_eq]

theorem entry_valid {e : Slot β ρ} (h : e.status = .valid) : e.entry = .elem (e.base, e.rest) := by
  rw [Slot.entry, h]

theorem entries_eq_elem {i : ℕ} {v : β × ρ} : entries slots i = .elem v ↔ slots i = ⟨.valid, v.1, v.2⟩ := by
  unfold entries
  constructor
  · unfold Slot.entry
    intro h
    split at h
    case h_3 hs =>
      obtain rfl := Entry.elem.inj h
      rw [← hs]
    all_goals cases h
  · intro h
    rw [h]
    rfl

theorem entries_update (i : ℕ) (e : Slot β ρ) :
    entries (Function.update slots i e) = Function.update (entries slots) i e.entry :=
  Function.comp_update Slot.entry slots i e

/-! ## Tables -/

def HFileParams.spot (P : HFileParams κ β) (size : ℕ) (k : κ) (j : ℕ) : ℕ := (next size 1)^[j] (P.hash k % size)

theorem visits_linear (hash : ℕ) (hpos : 0 < size) : Visits ((next size 1)^[·] (hash % size)) size :=
  visits_next (Nat.mod_lt _ hpos) hpos (Nat.coprime_one_left size)

/-- The slots of a table for the map. -/
def Represents (P : HFileParams κ β) (slots : ℕ → Slot β ρ) (size : ℕ) (m : Contents κ β ρ) : Prop :=
  Stores (fun v => P.key v.1) (P.spot size) size (entries slots) m

theorem exists_findEmptySlot (hash : ℕ) (hempty : ∃ i < size, entries slots i = .empty) :
    ∃ idx < size, findEmptySlot slots size hash = some idx ∧ entries slots idx = .empty ∧
      Chain (entries slots) ((next size 1)^[·] (hash % size)) idx := by
  have hpos : 0 < size := hempty.elim fun i hi => by omega
  obtain ⟨idx, hidx, hwalk, hrest⟩ := exists_emptySlot (visits_linear hash hpos) hempty
  refine ⟨idx, hidx, ?_, hrest⟩
  simp only [isEmpty_entries] at hwalk
  rw [findEmptySlot, walk, hwalk]
  rfl

/-! ## Copying -/

section Copying
variable [Inhabited ρ] {old : ℕ → Slot β ρ} {oldSize n : ℕ}

/-- A slot without an element has no bytes that an insertion of a base could keep. -/
def Blank (slots : ℕ → Slot β ρ) : Prop := ∀ i, (slots i).status ≠ .valid → (slots i).rest = default

theorem Blank.update (h : Blank slots) {e : Slot β ρ} (he : e.status ≠ .valid → e.rest = default) :
    Blank (Function.update slots idx e) := by
  intro i hi
  rw [Function.update_apply] at hi ⊢
  split_ifs at hi ⊢ with hidx
  · exact he hi
  · exact h i hi

/-- The new file has the elements of the first `n` slots of the old one. -/
structure CopiedElements (P : HFileParams κ β) (old : ℕ → Slot β ρ) (n : ℕ) (slots : ℕ → Slot β ρ) (size : ℕ) :
    Prop where
  copied : Copied (fun v => P.key v.1) (P.spot size) size (entries old) n (entries slots)
  blank : Blank slots

theorem copiedElements_zero [Inhabited β] (old : ℕ → Slot β ρ) (size : ℕ) :
    CopiedElements P old 0 (fun _ => Slot.zero) size := ⟨copied_zero _, fun _ _ => rfl⟩

section
variable (hold : Represents P old oldSize m) (hroom : Nat.count (fun i => (entries old i).isElem) oldSize < size)
include hold hroom

theorem CopiedElements.step [DecidableEq κ] (h : CopiedElements P old n slots size) (hn : n < oldSize) :
    ∃ slots', copyElement P size slots (old n) = some slots' ∧ CopiedElements P old (n + 1) slots' size := by
  by_cases hv : (old n).status = .valid
  · obtain ⟨idx, hidx, hfind, hempty, hchain⟩ := exists_findEmptySlot (P.hash (P.key (old n).base))
      (h.copied.counted.exists_empty ((Nat.count_monotone _ hn.le).trans_lt hroom))
    refine ⟨Function.update slots idx (old n), by rw [copyElement, if_pos hv, hfind]; rfl, ?_,
      h.blank.update fun hne => absurd hv hne⟩
    rw [entries_update, entry_valid hv]
    exact h.copied.put hold.unique hn (entry_valid hv) hidx hempty hchain
  · exact ⟨slots, by rw [copyElement, if_neg hv], h.copied.skip (by simp [isElem_entries, hv]), h.blank⟩

theorem CopiedElements.chunk [DecidableEq κ] {pos : ℕ} (h : CopiedElements P old pos slots size) (hn : pos + n ≤ oldSize) :
    ∃ slots', (List.range n).foldlM (fun slots i => copyElement P size slots (old (pos + i))) slots = some slots' ∧
      CopiedElements P old (pos + n) slots' size := by
  induction n with
  | zero => exact ⟨slots, rfl, h⟩
  | succ n ih =>
    obtain ⟨slots1, hfold, h1⟩ := ih (by omega)
    obtain ⟨slots2, hcopy, h2⟩ := h1.step hold hroom (by omega)
    refine ⟨slots2, ?_, h2⟩
    rw [List.range_succ, List.foldlM_append, hfold]
    simpa using hcopy

theorem CopiedElements.all [DecidableEq κ] {pos c : ℕ} (h : CopiedElements P old pos slots size) (hn : 0 < n)
    (hc : oldSize = pos + c * n) (fuel : ℕ) (hf : c < fuel) :
    ∃ slots', copyElements P old oldSize size n fuel pos slots = some (some slots') ∧
      CopiedElements P old oldSize slots' size := by
  induction c generalizing pos slots fuel with
  | zero =>
    obtain ⟨fuel, rfl⟩ : ∃ f, fuel = f + 1 := Nat.exists_eq_succ_of_ne_zero (by omega)
    have hpos : oldSize = pos := by omega
    subst hpos
    exact ⟨slots, by rw [copyElements, if_pos le_rfl], h⟩
  | succ c ih =>
    obtain ⟨fuel, rfl⟩ : ∃ f, fuel = f + 1 := Nat.exists_eq_succ_of_ne_zero (by omega)
    have hsum : oldSize = pos + n + c * n := by rw [hc]; ring
    obtain ⟨slots1, hfold, h1⟩ := h.chunk hold hroom (by omega : pos + n ≤ oldSize)
    obtain ⟨slots2, hcopy, h2⟩ := ih h1 hsum fuel (by omega)
    refine ⟨slots2, ?_, h2⟩
    rw [copyElements, if_neg (by omega), if_neg (by omega), hfold]
    exact hcopy

end

end Copying

section CopyingToNone
variable {old : ℕ → Slot β ρ} {oldSize : ℕ}

theorem foldlM_copyElement_zero (old slots : ℕ → Slot β ρ) (pos n : ℕ) :
    (List.range n).foldlM (fun slots i => copyElement P 0 slots (old (pos + i))) slots =
      if ∃ i < n, (old (pos + i)).status = .valid then none else some slots := by
  induction n with
  | zero => simp
  | succ n ih =>
    rw [List.range_succ, List.foldlM_append, ih]
    by_cases hbefore : ∃ i < n, (old (pos + i)).status = .valid
    · obtain ⟨i, hi, hv⟩ := hbefore
      rw [if_pos ⟨i, hi, hv⟩, if_pos ⟨i, by omega, hv⟩]
      rfl
    · rw [if_neg hbefore]
      by_cases hlast : (old (pos + n)).status = .valid
      · rw [if_pos ⟨n, by omega, hlast⟩]
        simp [copyElement, hlast, findEmptySlot, walk, walkBy]
      · rw [if_neg]
        · simp [copyElement, hlast]
        · rintro ⟨i, hi, hv⟩
          rcases Nat.lt_succ_iff_lt_or_eq.mp hi with hlt | rfl
          · exact hbefore ⟨i, hlt, hv⟩
          · exact hlast hv

theorem copyElements_zero {pos n c : ℕ} (hc : oldSize = pos + c * n)
    (hvalid : ∃ i, pos ≤ i ∧ i < oldSize ∧ (old i).status = .valid) (fuel : ℕ) :
    copyElements P old oldSize 0 n fuel pos slots = none := by
  induction c generalizing pos fuel with
  | zero =>
    obtain ⟨i, hi, hi', -⟩ := hvalid
    omega
  | succ c ih =>
    cases fuel with
    | zero => rfl
    | succ fuel =>
      have hsum : oldSize = pos + n + c * n := by rw [hc]; ring
      obtain ⟨i, hi, hi', hv⟩ := hvalid
      rw [copyElements, if_neg (by omega), if_neg (by omega), foldlM_copyElement_zero]
      by_cases hchunk : ∃ i < n, (old (pos + i)).status = .valid
      · rw [if_pos hchunk]
      · rw [if_neg hchunk]
        refine ih hsum ⟨i, ?_, hi', hv⟩ fuel
        by_contra hlt
        exact hchunk ⟨i - pos, by omega, by rwa [Nat.add_sub_cancel' hi]⟩

end CopyingToNone

theorem chunkSize_eq (fuel chunk : ℕ) : ∃ j, chunkSize fuel chunk = 2 ^ j * chunk := by
  induction fuel generalizing chunk with
  | zero => exact ⟨0, by rw [chunkSize, pow_zero, one_mul]⟩
  | succ fuel ih =>
    rw [chunkSize]
    split_ifs
    · obtain ⟨j, hj⟩ := ih (2 * chunk)
      exact ⟨j + 1, by rw [hj]; ring⟩
    · exact ⟨0, by rw [pow_zero, one_mul]⟩

theorem chunkElements_dvd {elementSize : ℕ} (he : 0 < elementSize) (k : ℕ) :
    0 < chunkElements elementSize (2 ^ k) ∧ chunkElements elementSize (2 ^ k) ∣ 2 ^ k := by
  obtain ⟨j, hj⟩ := chunkSize_eq 14 elementSize
  have hk := Nat.two_pow_pos k
  unfold chunkElements
  simp only [hj, Nat.mul_div_cancel _ he]
  split_ifs with hlt
  · exact ⟨hk, dvd_rfl⟩
  · exact ⟨Nat.two_pow_pos j, pow_dvd_pow 2 ((Nat.pow_le_pow_iff_right (a := 2) (by decide)).mp (by omega))⟩

/-! ## The invariant -/

variable [Inhabited ρ]

structure HFile.Inv (P : HFileParams κ β) (f : HFile β ρ) (m : Contents κ β ρ) : Prop where
  represents : Represents P f.slots f.size m
  blank : Blank f.slots
  pow : ∃ e, 5 ≤ e ∧ e ≤ 31 ∧ f.size = 2 ^ e
  counted : Counted (entries f.slots) f.size f.nElements f.nDeleted
  header : f.header = (f.nElements, f.nDeleted)
  room : f.nElements < f.size

namespace HFile
variable {f : HFile β ρ}

section
variable (h : f.Inv P m)

include h

theorem Inv.size_le : 32 ≤ f.size ∧ f.size ≤ 2 ^ 31 := by
  obtain ⟨e, he, he', hsize⟩ := h.pow
  rw [hsize]
  exact ⟨Nat.pow_le_pow_right (n := 2) (by decide) he, Nat.pow_le_pow_right (by decide) he'⟩

theorem Inv.deleted_le : f.nDeleted ≤ f.nElements := by
  have hlive := h.counted.live
  omega

theorem Inv.live_eq : f.live = f.nElements - f.nDeleted := by
  have hsize := h.size_le
  have hroom := h.room
  exact sub32_of_le h.deleted_le (by omega)

theorem Inv.live_count : f.live = Nat.count (fun i => (entries f.slots i).isElem) f.size := by
  have hlive := h.counted.live
  rw [h.live_eq]
  omega

/-! ## Expanding -/

/-- The size that is decided on is a power of two with room for the elements and one more. -/
theorem Inv.newSize_spec (hlive : f.live < 2 ^ 30) :
    (f.newSize = none ∧ f.nElements + 1 < f.size) ∨
      ∃ e, 5 ≤ e ∧ e ≤ 31 ∧ f.newSize = some (2 ^ e) ∧ f.live + 1 < 2 ^ e := by
  obtain ⟨hsize, hsize'⟩ := h.size_le
  obtain ⟨e, he, he', hpow⟩ := h.pow
  have hroom := h.room
  have hle : f.live ≤ f.nElements := by rw [h.live_eq]; exact Nat.sub_le ..
  unfold newSize
  split_ifs with hgrow hshrink hrehash
  · right
    rw [u32_of_lt (by omega)] at hgrow
    -- the size is below 2 ^ 31, so that twice the size is a size
    have hlt : 2 ^ e < 2 ^ 31 := by rw [← hpow]; omega
    have he31 : e < 31 := (Nat.pow_lt_pow_iff_right (by decide)).mp hlt
    have hdouble : u32 (2 * f.size) = 2 ^ (e + 1) := by
      rw [u32_of_lt (by omega), hpow, pow_succ']
    refine ⟨e + 1, by omega, by omega, by rw [hdouble], ?_⟩
    rw [pow_succ', ← hpow]
    omega
  · right
    obtain ⟨hsmall, h32⟩ := hshrink
    rw [u32_of_lt (by omega)] at hgrow
    have hlt : 2 ^ 5 < 2 ^ e := by rw [← hpow]; exact h32
    have he5 : 5 < e := (Nat.pow_lt_pow_iff_right (by decide)).mp hlt
    obtain ⟨e, rfl⟩ : ∃ j, e = j + 1 := Nat.exists_eq_succ_of_ne_zero (by omega)
    rw [pow_succ'] at hpow
    have hhalf : f.size / 2 = 2 ^ e := by omega
    refine ⟨e, by omega, by omega, by rw [hhalf], ?_⟩
    rw [← hhalf]
    unfold u32 at hsmall
    by_cases hwrap : 8 * f.live < 2 ^ 32
    · omega
    · -- the product wraps around only in a file of the largest size
      have hlt' : 2 ^ 29 < 2 ^ e := by omega
      have he29 : 29 < e := (Nat.pow_lt_pow_iff_right (by decide)).mp hlt'
      have heq : e = 30 := by omega
      subst heq
      omega
  · right
    rw [u32_of_lt (by omega)] at hgrow
    exact ⟨e, he, he', by rw [hpow], by rw [← hpow]; omega⟩
  · left
    rw [u32_of_lt (by omega)] at hrehash
    exact ⟨rfl, by omega⟩

variable [Inhabited β] [DecidableEq κ]

theorem Inv.expand (hlive : f.live < 2 ^ 30) :
    ∃ f', f.expand P = some (true, f') ∧ f'.Inv P m ∧ f'.nElements + 1 < f'.size ∧ f'.live = f.live := by
  unfold HFile.expand
  rcases h.newSize_spec hlive with ⟨hnone, hroom⟩ | ⟨e, he, he', hsome, hroom⟩
  · rw [hnone]
    exact ⟨f, rfl, h, hroom, rfl⟩
  · obtain ⟨e0, -, -, hpow⟩ := h.pow
    obtain ⟨hpos, hdvd⟩ := chunkElements_dvd (lt_of_lt_of_le (by decide) P.header_le) e0
    rw [← hpow] at hpos hdvd
    obtain ⟨c, hc⟩ := hdvd
    have hcount : Nat.count (fun i => (entries f.slots i).isElem) f.size < 2 ^ e := by
      rw [← h.live_count]
      omega
    have hcle : c ≤ f.size := by
      rw [hc]
      exact Nat.le_mul_of_pos_left c hpos
    obtain ⟨slots, hcopy, hall⟩ := (copiedElements_zero (P := P) f.slots (2 ^ e)).all (c := c) h.represents hcount hpos
      (by rw [Nat.zero_add, Nat.mul_comm]; exact hc) (f.size + 1) (by omega)
    rw [hsome]
    simp only [hcopy]
    refine ⟨_, rfl, ⟨hall.copied.stores h.represents.mem, hall.blank, ⟨e, he, he', rfl⟩, ?_, rfl, ?_⟩, hroom, ?_⟩
    · rw [h.live_count]
      exact hall.copied.counted
    · dsimp only
      omega
    · have hlt : f.live < 2 ^ 32 := by omega
      exact sub32_of_le (Nat.zero_le _) hlt

omit [DecidableEq κ] in
/-- With so many elements the new size is zero as an `unsigned int`. -/
theorem Inv.expand_none (hlive : 2 ^ 30 ≤ f.live) : f.expand P = none := by
  obtain ⟨hsize, hsize'⟩ := h.size_le
  obtain ⟨e, he, he', hpow⟩ := h.pow
  have hroom := h.room
  have hle : f.live ≤ f.nElements := by rw [h.live_eq]; exact Nat.sub_le ..
  have hlt : 2 ^ 30 < 2 ^ e := by omega
  have he30 : 30 < e := (Nat.pow_lt_pow_iff_right (by decide)).mp hlt
  have heq : e = 31 := by omega
  subst heq
  have hnew : f.newSize = some 0 := by
    rw [newSize, if_pos (by rw [u32_of_lt (by omega)]; omega), hpow]
    rfl
  obtain ⟨i, hi, hv⟩ : ∃ i < f.size, (f.slots i).status = .valid := by
    by_contra hno
    have hzero : Nat.count (fun i => (entries f.slots i).isElem) f.size = 0 := by
      rw [Nat.count_eq_card_filter_range, Finset.card_eq_zero, Finset.filter_eq_empty_iff]
      exact fun i hi hv => hno ⟨i, Finset.mem_range.mp hi, by simpa [isElem_entries] using hv⟩
    rw [h.live_count, hzero] at hlive
    omega
  obtain ⟨-, c, hc⟩ := chunkElements_dvd (lt_of_lt_of_le (by decide) P.header_le) 31
  rw [← hpow, Nat.mul_comm] at hc
  unfold HFile.expand
  rw [hnew]
  simp only [copyElements_zero (by rw [Nat.zero_add]; exact hc) ⟨i, Nat.zero_le _, hi, hv⟩]

/-! ## Finding slots -/

omit [Inhabited β] in
theorem Inv.exists_findSlot (k : κ) :
    ∃ idx firstDeleted, f.findSlot P k = some (idx, firstDeleted) ∧
      Found (fun v => P.key v.1) (P.spot f.size k) f.size (entries f.slots) k idx firstDeleted := by
  have hpos := h.size_le
  obtain ⟨idx, firstDeleted, hwalk, hfound⟩ := exists_found (fun v => P.key v.1) k
    (visits_linear (P.hash k) (by omega)) (h.counted.exists_empty h.room)
  refine ⟨idx, firstDeleted, ?_, hfound⟩
  have hstop : (fun i => (f.slots i).status = .empty || ((f.slots i).status = .valid && P.key (f.slots i).base = k)) =
      fun i => stopsAt (fun v : β × ρ => P.key v.1) k (entries f.slots i) := by
    funext i
    unfold entries Slot.entry
    cases (f.slots i).status <;> simp [stopsAt]
  simp only [findSlot, walk, hstop]
  rw [← hwalk]
  congr 1
  funext noted i
  simp [noteDeleted]

/-! ## Operations -/

omit [Inhabited β] in
theorem Inv.place (nElements nDeleted : ℕ) (hidx : idx < f.size) (x : β × ρ) (baseOnly : Bool)
    (hchain : Chain (entries f.slots) (P.spot f.size (P.key x.1)) idx)
    (hslot : (∃ y, entries f.slots idx = .elem y ∧ P.key y.1 = P.key x.1) ∨
      (∀ y, entries f.slots idx ≠ .elem y) ∧ m (P.key x.1) = none)
    (helements : nElements + (if !(entries f.slots idx).isEmpty then 1 else 0) = f.nElements + 1)
    (hdeleted : nDeleted + (if (entries f.slots idx).isDeleted then 1 else 0) = f.nDeleted) (hroom : nElements < f.size) :
    (HFile.place { f with nElements := nElements, nDeleted := nDeleted } idx x baseOnly).Inv P
      (m.insert P.key x baseOnly) := by
  have hrest : (f.slots idx).rest = ((m (P.key x.1)).map Prod.snd).getD default := by
    rcases hslot with ⟨y, hy, hkey⟩ | ⟨hno, hnone⟩
    · rw [← hkey, h.represents.of_elem hidx hy, entries_eq_elem.mp hy]
      rfl
    · rw [hnone]
      exact h.blank idx fun hv => hno _ (entry_valid hv)
  refine ⟨?_, h.blank.update fun hv => absurd rfl hv, h.pow, ?_, rfl, hroom⟩
  · unfold Contents.insert
    rw [← hrest]
    have hput := h.represents.put (x := (x.1, if baseOnly then (f.slots idx).rest else x.2)) hidx hchain hslot
    rwa [← entry_valid (e := ⟨.valid, x.1, _⟩) rfl, ← entries_update] at hput
  · have hcount := h.counted.update hidx (.elem (x.1, if baseOnly then (f.slots idx).rest else x.2)) helements hdeleted
    rwa [← entry_valid (e := ⟨.valid, x.1, _⟩) rfl, ← entries_update] at hcount

theorem Inv.insert (hlive : f.live < 2 ^ 30) (x : β × ρ) (baseOnly : Bool) :
    ∃ f', f.insert P x baseOnly = some (true, f') ∧ f'.Inv P (m.insert P.key x baseOnly) ∧
      f'.live = f.live + if m (P.key x.1) = none then 1 else 0 := by
  obtain ⟨f1, hexpand, h1, hroom, hsame⟩ := h.expand hlive
  obtain ⟨idx, firstDeleted, hfind, hfound⟩ := h1.exists_findSlot (P.key x.1)
  have hle := h1.deleted_le
  have hsize := h1.size_le
  have hlive1 := h1.live_eq
  unfold HFile.insert
  rw [hexpand]
  simp only [hfind]
  rcases hfound.slot h1.represents with ⟨hempty, hnone⟩ | ⟨y, hy, hkey, hsome⟩
  · rw [if_neg (not_not.mpr (entries_eq_empty.mp hempty)), if_pos hnone]
    cases hfd : firstDeleted with
    | some del =>
      -- the first deleted slot is used again
      obtain ⟨hdel, hstatus, hchain⟩ := hfound.deleted del hfd
      have hpos := h1.counted.deleted_pos hdel hstatus
      have hsub : sub32 f1.nDeleted 1 = f1.nDeleted - 1 := sub32_of_le (by omega) (by omega)
      have hinv := h1.place f1.nElements (f1.nDeleted - 1) hdel x baseOnly hchain
        (Or.inr ⟨fun y => by simp [hstatus], hnone⟩) (by rw [hstatus]; rfl)
        (by rw [hstatus]; exact Nat.sub_add_cancel hpos) h1.room
      refine ⟨_, rfl, by rw [hsub]; exact hinv, ?_⟩
      rw [hsub, hinv.live_eq, ← hsame, hlive1]
      change f1.nElements - (f1.nDeleted - 1) = _
      omega
    | none =>
      have hadd : u32 (f1.nElements + 1) = f1.nElements + 1 := u32_of_lt (by omega)
      have hinv := h1.place (f1.nElements + 1) f1.nDeleted hfound.lt x baseOnly hfound.chain
        (Or.inr ⟨fun y => by simp [hempty], hnone⟩) (by rw [hempty]; rfl) (by rw [hempty]; rfl) hroom
      refine ⟨_, rfl, by rw [hadd]; exact hinv, ?_⟩
      rw [hadd, hinv.live_eq, ← hsame, hlive1]
      change f1.nElements + 1 - f1.nDeleted = _
      omega
  · have hinv := h1.place f1.nElements f1.nDeleted hfound.lt x baseOnly hfound.chain
      (Or.inl ⟨y, hy, hkey⟩) (by rw [hy]; rfl) (by rw [hy]; rfl) h1.room
    rw [if_pos (by rw [entries_eq_elem.mp hy]; simp)]
    refine ⟨_, rfl, hinv, ?_⟩
    rw [hinv.live_eq, ← hsame, hlive1, if_neg (by rw [hsome]; simp)]
    rfl

theorem Inv.delete (hlive : f.live < 2 ^ 30) (k : κ) :
    ∃ f', f.delete P k = some (true, f') ∧ f'.Inv P (Function.update m k none) := by
  obtain ⟨f1, hexpand, h1, -, -⟩ := h.expand hlive
  obtain ⟨idx, firstDeleted, hfind, hfound⟩ := h1.exists_findSlot k
  have hle := h1.deleted_le
  have hsize := h1.size_le
  have hroom := h1.room
  unfold HFile.delete
  rw [hexpand]
  simp only [hfind]
  rcases hfound.slot h1.represents with ⟨hempty, hnone⟩ | ⟨y, hy, rfl, -⟩
  · rw [if_pos (by rw [entries_eq_empty.mp hempty]; simp), ← hnone, Function.update_eq_self]
    exact ⟨f1, rfl, h1⟩
  · rw [if_neg (by rw [entries_eq_elem.mp hy]; simp)]
    have hentry : (.deleted : Entry (β × ρ)) = Slot.entry ⟨.deleted, default, default⟩ := rfl
    refine ⟨_, rfl, ?_, h1.blank.update fun _ => rfl, h1.pow, ?_, rfl, h1.room⟩
    · have hr := h1.represents.remove hfound.lt hy
      rwa [hentry, ← entries_update] at hr
    · have hcount : Counted _ _ f1.nElements (f1.nDeleted + 1) :=
        h1.counted.update hfound.lt .deleted (by rw [hy]; rfl) (by rw [hy]; rfl)
      rwa [hentry, ← entries_update, ← u32_of_lt (by omega : f1.nDeleted + 1 < 2 ^ 32)] at hcount

end

variable [Inhabited β] [DecidableEq κ]

/-- A call returns exactly when there are fewer than `2 ^ 30` elements. -/
theorem Inv.call (h : f.Inv P m) (c : HFileCall κ β ρ) (hlive : f.live < 2 ^ 30) :
    ∃ f', f.call P c = some (true, f') ∧ f'.Inv P (m.call P.key c) := by
  cases c with
  | insert x baseOnly =>
    obtain ⟨f', hf', h', -⟩ := h.insert hlive x baseOnly
    exact ⟨f', hf', h'⟩
  | delete k => exact h.delete hlive k

theorem Inv.call_none (h : f.Inv P m) (c : HFileCall κ β ρ) (hlive : 2 ^ 30 ≤ f.live) : f.call P c = none := by
  have hnone := h.expand_none hlive
  cases c with
  | insert x baseOnly => simp only [HFile.call, HFile.insert, hnone]
  | delete k => simp only [HFile.call, HFile.delete, hnone]

/-! ## Runs -/

structure Shows (P : HFileParams κ β) (f : HFile β ρ) (m : Contents κ β ρ) : Prop where
  present : ∀ k v, m k = some v → f.lookup P k = some ⟨.valid, v.1, v.2⟩
  absent : ∀ k, m k = none → ∃ e, f.lookup P k = some e ∧ e.status ≠ .valid
  elements : f.nElements = Nat.count (fun i => (f.slots i).status ≠ .empty) f.size
  deleted : f.nDeleted = Nat.count (fun i => (f.slots i).status = .deleted) f.size
  header : f.header = (f.nElements, f.nDeleted)
  empty : ∃ i < f.size, (f.slots i).status = .empty

omit [Inhabited β] in
theorem Inv.shows (h : f.Inv P m) : f.Shows P m := by
  have helements := h.counted.elements
  have hdeleted := h.counted.deleted
  obtain ⟨i, hi, hempty⟩ := h.counted.exists_empty h.room
  simp only [isEmpty_entries, isDeleted_entries, Bool.not_eq_true', decide_eq_false_iff_not, decide_eq_true_eq]
    at helements hdeleted
  refine ⟨fun k v hv => ?_, fun k hk => ?_, helements, hdeleted, h.header, i, hi, entries_eq_empty.mp hempty⟩
  · obtain ⟨idx, firstDeleted, hfind, hfound⟩ := h.exists_findSlot k
    rcases hfound.slot h.represents with ⟨-, hnone⟩ | ⟨y, hy, -, hsome⟩
    · rw [hv] at hnone
      cases hnone
    · rw [hv, Option.some.injEq] at hsome
      rw [lookup, hfind, hsome, ← entries_eq_elem.mp hy]
      rfl
  · obtain ⟨idx, firstDeleted, hfind, hfound⟩ := h.exists_findSlot k
    rcases hfound.slot h.represents with ⟨hempty, -⟩ | ⟨y, -, -, hsome⟩
    · exact ⟨f.slots idx, by rw [lookup, hfind]; rfl, by rw [entries_eq_empty.mp hempty]; decide⟩
    · rw [hk] at hsome
      cases hsome

end HFile

variable [DecidableEq κ] [Inhabited β]

omit [DecidableEq κ] in
theorem inv_create {e : ℕ} (he : 5 ≤ e) (he' : e ≤ 31) : (HFile.create (2 ^ e) : HFile β ρ).Inv P fun _ => none :=
  ⟨stores_empty, fun _ _ => rfl, ⟨e, he, he', rfl⟩, counted_empty _, rfl, Nat.two_pow_pos e⟩

def hfileStep (P : HFileParams κ β) (s : HFile β ρ × Contents κ β ρ) (c : HFileCall κ β ρ) :
    Option (HFile β ρ × Contents κ β ρ) :=
  match s.1.call P c with
  | some (true, f) => some (f, s.2.call P.key c)
  | _ => none

theorem hfileStep_inv {s s' : HFile β ρ × Contents κ β ρ} {c : HFileCall κ β ρ} (h : s.1.Inv P s.2)
    (hlive : s.1.live < 2 ^ 30) (hstep : hfileStep P s c = some s') : s'.1.Inv P s'.2 := by
  obtain ⟨f', hf', h'⟩ := h.call c hlive
  rw [hfileStep, hf', Option.some.injEq] at hstep
  subst hstep
  exact h'

def emptyHFile (s : HFile β ρ × Contents κ β ρ) : Prop :=
  ∃ e, 5 ≤ e ∧ e ≤ 31 ∧ s = (HFile.create (2 ^ e), fun _ => none)

/-- In a run in which no call finds `2 ^ 30` elements or more, the hash file shows the map after every call.
The next call returns exactly if it finds fewer elements than that. -/
theorem hfile_shows {s : HFile β ρ × Contents κ β ρ}
    (h : Runs.Reach (hfileStep P) (fun s _ => s.1.live < 2 ^ 30) emptyHFile s) :
    s.1.Shows P s.2 ∧ ∀ c, (∃ f, s.1.call P c = some (true, f)) ↔ s.1.live < 2 ^ 30 := by
  have hinv : s.1.Inv P s.2 := by
    refine h.inv (I := fun s => s.1.Inv P s.2) (fun s hs => ?_) fun s c s' hs hlive hstep => hfileStep_inv hs hlive hstep
    obtain ⟨e, he, he', rfl⟩ := hs
    exact inv_create he he'
  refine ⟨hinv.shows, fun c => ⟨fun ⟨f, hf⟩ => ?_, fun hlive => ?_⟩⟩
  · by_contra hlive
    rw [hinv.call_none c (by omega)] at hf
    cases hf
  · obtain ⟨f', hf', -⟩ := hinv.call c hlive
    exact ⟨f', hf'⟩

end HashFile

def numbers : HFileParams ℕ ℕ := ⟨id, id, 8, le_rfl, by decide⟩

def numbersFile : HFile ℕ Unit × Contents ℕ ℕ Unit := (HFile.create 32, fun _ => none)

/-- The numbers 7 and 39 collide and 7 is deleted; the last insertion finds 16 elements in 32 slots. -/
def expandingFileCalls : List (HFileCall ℕ ℕ Unit) :=
  [.insert (7, ()) false, .insert (39, ()) false, .delete 7] ++ (List.range 16).map fun k => .insert (k + 10, ()) false

theorem hfile_shows_inserted :
    ∃ s, Runs.run (hfileStep numbers) numbersFile expandingFileCalls = some s ∧ s.1.size = 64 ∧ s.1.live = 17 ∧
      s.1.Shows numbers s.2 ∧ ∀ c, (∃ f, s.1.call numbers c = some (true, f)) ↔ s.1.live < 2 ^ 30 := by
  obtain ⟨s, hs, hsize, hlive⟩ : ∃ s, Runs.run (hfileStep numbers) numbersFile expandingFileCalls = some s ∧
      s.1.size = 64 ∧ s.1.live = 17 := ⟨_, rfl, by decide +kernel, by decide +kernel⟩
  have hinit : Runs.Reach (hfileStep numbers) (fun s _ => s.1.live < 2 ^ 30) emptyHFile numbersFile :=
    .init ⟨5, le_rfl, by decide, rfl⟩
  exact ⟨s, hs, hsize, hlive, hfile_shows (hinit.run expandingFileCalls (by decide +kernel) hs)⟩

/-- The numbers below `n` are inserted into a file of 32 slots. -/
theorem insert_numbers {n : ℕ} (hn : n ≤ 2 ^ 30) :
    ∃ s : HFile ℕ Unit × Contents ℕ ℕ Unit,
      Runs.run (hfileStep numbers) numbersFile
        ((List.range n).map fun k => .insert (k, ()) false) = some s ∧
      s.1.Inv numbers s.2 ∧ s.1.live = n ∧ ∀ k, n ≤ k → s.2 k = none := by
  induction n with
  | zero => exact ⟨_, rfl, inv_create le_rfl (by decide), rfl, fun _ _ => rfl⟩
  | succ n ih =>
    obtain ⟨s, hrun, hinv, hlive, hnone⟩ := ih (by omega)
    obtain ⟨f', hf', h', hlive'⟩ := hinv.insert (by omega) (n, ()) false
    have hstep : hfileStep numbers s (.insert (n, ()) false) = some (f', s.2.call numbers.key (.insert (n, ()) false)) := by
      unfold hfileStep
      rw [show s.1.call numbers (.insert (n, ()) false) = some (true, f') from hf']
    refine ⟨(f', s.2.call numbers.key (.insert (n, ()) false)), ?_, h', ?_, fun k hk => ?_⟩
    · rw [List.range_succ, List.map_append, Runs.run_append, hrun]
      simpa [Runs.run] using hstep
    · have habsent : s.2 (numbers.key (n, ()).1) = none := hnone n le_rfl
      rw [hlive', hlive, if_pos habsent]
    · have hne : k ≠ n := by omega
      exact (Function.update_of_ne hne ..).trans (hnone k (by omega))

/-- After `2 ^ 30` insertions no call returns. -/
theorem hfile_no_return :
    ∃ s : HFile ℕ Unit × Contents ℕ ℕ Unit,
      Runs.run (hfileStep numbers) numbersFile
        ((List.range (2 ^ 30)).map fun k => .insert (k, ()) false) = some s ∧
      ∀ c, s.1.call numbers c = none := by
  obtain ⟨s, hrun, hinv, hlive, -⟩ := insert_numbers le_rfl
  exact ⟨s, hrun, fun c => hinv.call_none c hlive.ge⟩

end ZFS
