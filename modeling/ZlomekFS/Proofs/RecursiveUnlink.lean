import ZlomekFS.Proofs.LocalVolume
import ZlomekFS.Spec.RecursiveUnlink

/-! Sequences of `recursive_unlink` that may move files to the shadow. A regular file with modified data
or without a master file handle keeps a name as long as no call meets one of three situations: the file
or directory to be moved has its name in the shadow already, the flag of the modified data is about to be
lost because one short name remains, or the volume has its master here. -/

namespace ZFS
open Loops List

namespace LocalVolume

variable {v v₀ v' : LocalVolume} {id j : FileId} {link : Link}

/-- Names in the shadow belong to the files they tell, and a directory has one name. -/
structure Tidy (v : LocalVolume) : Prop where
  shadow : ∀ id name j, v.lstat (v.shadowLink id name) = some j → j = id
  dir : ∀ id l l', v.ftype id = .dir → v.lstat l = some id → v.lstat l' = some id → l = l'

/-- A regular file that must not be lost, with the record `m` and the names `hl`. -/
structure UnsavedAs (v : LocalVolume) (id : FileId) (m : FileMetadata) (hl : List Link) : Prop where
  ftype : v.ftype id = .reg
  metadata : v.metadata id = some m
  type : m.type = .reg
  dirty : m.modifiedTree = true ∨ m.masterFh = none
  stores : v.Stores id m hl
  nodup : hl.Nodup
  names : ∀ l, l ∈ hl ↔ v.lstat l = some id
  named : hl ≠ []

/-- A regular file with modified data or without a master file handle, of which the metadata knows the
names. -/
def Unsaved (v : LocalVolume) (id : FileId) : Prop := ∃ m hl, v.UnsavedAs id m hl

/-- The names of the file are those it had or names in the shadow. -/
structure Kept (v₀ : LocalVolume) (id : FileId) (v : LocalVolume) : Prop where
  tidy : v.Tidy
  shadowDir : v.shadowDir = v₀.shadowDir
  unsaved : v.Unsaved id
  names : ∀ l, v.lstat l = some id → v₀.lstat l = some id ∨ ∃ name, l = v₀.shadowLink id name

/-- Whether `recursive_unlink` moves the file or the directory to the shadow. -/
def moves (v : LocalVolume) (id : FileId) : Bool :=
  v.keepsInShadow id || (v.ftype id = .dir && !v.isMaster && (v.metadata id).all (·.masterFh = none))

/-! ## Changes of the metadata of another file -/

theorem Tidy.onlyMetadata (h : v.Tidy) (ho : OnlyMetadata j v v') : v'.Tidy where
  shadow id name k hk := by
    rw [ho.lstat, shadowLink, ho.shadowDir] at hk
    exact h.shadow id name k hk
  dir id l l' hd hl hl' := by
    rw [ho.ftype] at hd
    rw [ho.lstat] at hl hl'
    exact h.dir id l l' hd hl hl'

theorem Kept.other (h : Kept v₀ id v) (htidy : v'.Tidy) (hdir : v'.shadowDir = v.shadowDir) (hft : v'.ftype = v.ftype)
    (hmeta : v'.metadata id = v.metadata id) (hfile : v'.hardlinks id = v.hardlinks id)
    (hsame : ∀ l, v'.lstat l = some id ↔ v.lstat l = some id) : Kept v₀ id v' := by
  obtain ⟨m, hl, hm⟩ := h.unsaved
  refine ⟨htidy, hdir.trans h.shadowDir, ⟨m, hl, ?_⟩, fun l hl => h.names l ((hsame l).mp hl)⟩
  refine ⟨hft ▸ hm.ftype, hmeta.trans hm.metadata, hm.type, hm.dirty, ?_, hm.nodup,
    fun l => (hm.names l).trans (hsame l).symm, hm.named⟩
  unfold Stores
  rw [hfile]
  exact hm.stores

theorem Kept.onlyMetadata (h : Kept v₀ id v) (ho : OnlyMetadata j v v') (hj : id ≠ j) : Kept v₀ id v' :=
  h.other (h.tidy.onlyMetadata ho) ho.shadowDir ho.ftype (ho.metadata id hj) (ho.hardlinks id hj) fun l => by
    rw [ho.lstat]

theorem UnsavedAs.not_bad {m : FileMetadata} {hl : List Link} (h : v.UnsavedAs id m hl) : m.type ≠ .bad := by
  rw [h.type]
  decide

theorem UnsavedAs.nHardlinks {m : FileMetadata} {hl : List Link} (h : v.UnsavedAs id m hl) :
    v.nHardlinks id = hl.length := by
  unfold LocalVolume.nHardlinks
  rw [lookupMetadata_of_type h.metadata h.not_bad (Or.inl rfl), h.stores.readHardlinks h.not_bad]

theorem Kept.lookupMetadata (h : Kept v₀ id v) (j : FileId) (insert : Bool) :
    Kept v₀ id (v.lookupMetadata j (v.ftype j) insert).1 := by
  by_cases hj : id = j
  · subst hj
    obtain ⟨m, hl, hm⟩ := h.unsaved
    rw [lookupMetadata_of_type hm.metadata hm.not_bad (Or.inr (by rw [hm.ftype, hm.type]))]
    exact h
  · exact h.onlyMetadata (OnlyMetadata.lookupMetadata ..) hj

/-! ## Removing a name -/

theorem Tidy.unlink (h : v.Tidy) (link : Link) : (v.unlink link).Tidy where
  shadow id name j hj := by
    rw [lstat_unlink] at hj
    split_ifs at hj
    exact h.shadow id name j hj
  dir id l l' hd hl hl' := by
    rw [lstat_unlink] at hl hl'
    split_ifs at hl hl'
    exact h.dir id l l' hd hl hl'

theorem Kept.unlink (h : Kept v₀ id v) (hlink : v.lstat link ≠ some id) : Kept v₀ id (v.unlink link) := by
  refine h.other (h.tidy.unlink link) rfl rfl rfl rfl fun l => ?_
  rw [lstat_unlink]
  split_ifs with hl
  · subst hl
    simp [hlink]
  · rfl

/-- What `recursive_unlink_itself` does to a name that it removes. -/
def remove (v : LocalVolume) (id : FileId) (link : Link) : LocalVolume :=
  (v.unlink link).deleteMetadata id { (v.metadata id).getD (newMetadata .bad) with
    modifiedTree := false, shadow := false, type := v.ftype id } (v.metadata id).isSome link

theorem remove_only (v : LocalVolume) (id : FileId) (link : Link) :
    OnlyMetadata id (v.unlink link) (v.remove id link) :=
  OnlyMetadata.deleteMetadata ..

theorem lstat_remove {l : Link} : (v.remove id link).lstat l = if l = link then none else v.lstat l := by
  rw [(remove_only v id link).lstat, lstat_unlink]

theorem Kept.remove_other (h : Kept v₀ id v) (hlink : v.lstat link = some j) (hj : id ≠ j) :
    Kept v₀ id (v.remove j link) := by
  have hne : v.lstat link ≠ some id := by
    rw [hlink]
    exact fun he => hj (Option.some_inj.mp he).symm
  exact (h.unlink hne).onlyMetadata (remove_only v j link) hj

/-- The record after a name went and the names `hl` are left. One short name is stored in it, without the flags. -/
def leftRecord (m : FileMetadata) : List Link → FileMetadata
  | [] => newMetadata .bad
  | [l] => if l.name.length < METADATA_NAME_SIZE then { m with modifiedTree := false, shadow := false, link := some l } else m
  | _ => m

theorem remove_spec {m : FileMetadata} {hl : List Link} (hm : v.metadata id = some m) (htype : v.ftype id = m.type)
    (hstores : v.Stores id m hl) (hlink : link ∈ hl) :
    (v.remove id link).metadata id = some (leftRecord m (hl.erase link)) ∧
      (hl.erase link ≠ [] → (v.remove id link).Stores id (leftRecord m (hl.erase link)) (hl.erase link) ∧
        (leftRecord m (hl.erase link)).type = m.type) := by
  simp only [LocalVolume.remove, hm, Option.getD_some, Option.isSome_some, htype, deleteMetadata]
  rcases hstores with ⟨hnone, hfile⟩ | ⟨l, _, hfile, rfl⟩
  · simp only [show (v.unlink link).hardlinks id = some hl from hfile]
    generalize hl.erase link = left
    cases left with
    | nil => exact ⟨Function.update_self .., absurd rfl⟩
    | cons l rest =>
      rw [if_pos (cons_ne_nil _ _), writeHardlinks]
      by_cases hlong : rest ≠ [] ∨ METADATA_NAME_SIZE ≤ l.name.length
      · have hrecord : leftRecord m (l :: rest) = m := by
          cases rest with
          | nil => exact if_neg (not_lt.mpr (hlong.resolve_left (absurd rfl)))
          | cons _ _ => rfl
        rw [if_pos hlong, if_pos ⟨rfl, hnone⟩, hrecord]
        exact ⟨hm, fun _ => ⟨Or.inl ⟨hnone, Function.update_self ..⟩, rfl⟩⟩
      · rw [if_neg hlong]
        simp only [not_or, not_not, not_le] at hlong
        obtain ⟨rfl, hshort⟩ := hlong
        rw [leftRecord, if_pos hshort]
        exact ⟨Function.update_self .., fun _ => ⟨Or.inr ⟨l, rfl, Function.update_self .., rfl⟩, rfl⟩⟩
  · rw [mem_singleton.mp hlink, erase_cons_head]
    simp only [show (v.unlink l).hardlinks id = none from hfile]
    exact ⟨Function.update_self .., absurd rfl⟩

/-- One of several names goes. -/
theorem UnsavedAs.remove {m : FileMetadata} {hl : List Link} (h : v.UnsavedAs id m hl) (hlink : link ∈ hl)
    (hlen : hl.length ≠ 1)
    (hflag : m.modifiedTree = true → m.masterFh ≠ none → hl.length = 2 →
      ∀ l ∈ hl.erase link, METADATA_NAME_SIZE ≤ l.name.length) :
    ∃ m', (v.remove id link).UnsavedAs id m' (hl.erase link) := by
  have hnames (l : Link) : l ∈ hl.erase link ↔ (v.unlink link).lstat l = some id := by
    rw [h.nodup.mem_erase_iff, h.names, lstat_unlink]
    split_ifs with hl <;> simp [hl]
  have hleft : hl.erase link ≠ [] := by
    intro hnil
    have := length_erase_of_mem hlink
    have := length_pos_of_mem hlink
    simp [hnil] at *
    omega
  obtain ⟨hmetadata, hrecord⟩ := remove_spec h.metadata (h.ftype.trans h.type.symm) h.stores hlink
  obtain ⟨hstores, htype⟩ := hrecord hleft
  refine ⟨_, (remove_only v id link).ftype ▸ h.ftype, hmetadata, htype.trans h.type, ?_, hstores, h.nodup.erase link,
    fun l => (hnames l).trans (by rw [(remove_only v id link).lstat]), hleft⟩
  match hrest : hl.erase link with
  | [] => exact absurd hrest hleft
  | _ :: _ :: _ => exact h.dirty
  | [l] =>
    rw [leftRecord]
    split_ifs with hshort
    · refine Or.inr ?_
      by_contra hfh
      have htwo : hl.length = 2 := by
        have := length_erase_of_mem hlink
        rw [hrest, length_singleton] at this
        omega
      have := hflag (h.dirty.resolve_right hfh) hfh htwo l (by simp [hrest])
      omega
    · exact h.dirty

/-! ## Moving to the shadow -/

theorem Tidy.rename (h : v.Tidy) {name : Name} (hlink : v.lstat link = some j)
    (hv : ∀ l, v'.lstat l = if l = v.shadowLink j name then some j else if l = link then none else v.lstat l)
    (hdir : v'.shadowDir = v.shadowDir) (hft : v'.ftype = v.ftype) : v'.Tidy where
  shadow id name' k hk := by
    have hshadow : v'.shadowLink id name' = v.shadowLink id name' := by simp [shadowLink, hdir]
    rw [hshadow, hv] at hk
    split_ifs at hk with heq hold
    · rw [← Option.some_inj.mp hk]
      exact (shadowLink_inj heq).symm
    · exact h.shadow id name' k hk
  dir id l l' hd hl hl' := by
    rw [hft] at hd
    rw [hv] at hl hl'
    -- the only name of the directory that is moved is the old one
    have hold (k : Link) (hk : k ≠ link) (hid : j = id) (hkid : v.lstat k = some id) : False :=
      hk (h.dir id k link hd hkid (hid ▸ hlink))
    split_ifs at hl hl' with h1 h2 h3 h4 h5
    · rw [h1, h2]
    · exact (hold l' h3 (Option.some_inj.mp hl) hl').elim
    · exact (hold l h4 (Option.some_inj.mp hl') hl).elim
    · exact h.dir id l l' hd hl hl'

/-- The file `j` under another name. -/
def renamed (v : LocalVolume) (j : FileId) (old new : Link) : LocalVolume :=
  { v with entries := (v.unlink old).entries ++ [(new, j)] }

theorem lstat_renamed {new : Link} (hnew : v.lstat new = none) (l : Link) :
    (v.renamed j link new).lstat l = if l = new then some j else if l = link then none else v.lstat l :=
  lookup_rename hnew

theorem Kept.renamed_other (h : Kept v₀ id v) {name : Name} (hlink : v.lstat link = some j) (hj : id ≠ j)
    (hnew : v.lstat (v.shadowLink j name) = none) : Kept v₀ id (v.renamed j link (v.shadowLink j name)) := by
  refine h.other (h.tidy.rename hlink (lstat_renamed hnew) rfl rfl) rfl rfl rfl rfl fun l => ?_
  rw [lstat_renamed hnew]
  split_ifs with h1 h2
  · simp [h1, hnew, Ne.symm hj]
  · simp [h2, hlink, Ne.symm hj]
  · rfl

/-- The list of the only name becomes the name in the shadow, which is short enough for the record. -/
theorem UnsavedAs.renamed {m : FileMetadata} {name : Name} (h : v.UnsavedAs id m [link])
    (hnew : v.lstat (v.shadowLink id name) = none) :
    ((v.renamed id link (v.shadowLink id name)).hardlinkReplace id .reg link (v.shadowLink id name)).UnsavedAs id
      { m with shadow := true, link := some (v.shadowLink id name) } [v.shadowLink id name] := by
  have hstores : (v.renamed id link (v.shadowLink id name)).Stores id m [link] := h.stores
  have hmeta : (v.renamed id link (v.shadowLink id name)).metadata id = some m := h.metadata
  have hshort : ¬ METADATA_NAME_SIZE ≤ (v.shadowLink id name).name.length :=
    Nat.not_le.mpr (shadowName_length id name)
  have hreplace : (v.renamed id link (v.shadowLink id name)).lookupMetadata id .reg false = (_, some m) :=
    lookupMetadata_of_type hmeta h.not_bad (Or.inr h.type.symm)
  simp only [hardlinkReplace, hreplace, hstores.readHardlinks h.not_bad, mem_singleton, true_or, if_true,
    erase_cons_head, hardlinkListInsert, not_mem_nil, if_false, nil_append, writeHardlinks,
    ne_eq, not_true_eq_false, false_or, if_neg hshort, Option.getD_some]
  refine ⟨h.ftype, Function.update_self .., h.type, h.dirty, Or.inr ⟨_, rfl, Function.update_self .., rfl⟩,
    nodup_singleton _, fun l => ?_, cons_ne_nil _ _⟩
  have hold : v.lstat l = some id ↔ l = link := by simp [← h.names l]
  change _ ↔ (v.renamed id link (v.shadowLink id name)).lstat l = some id
  rw [lstat_renamed hnew, mem_singleton]
  split_ifs with h1 h2
  · simp [h1]
  · simp [h1]
  · simp [h1, hold, h2]

theorem Kept.localRenameBase (h : Kept v₀ id v) {name : Name} (hlink : v.lstat link = some j)
    (hone : j = id → ∀ l, v.lstat l = some id → l = link) (hnew : v.lstat (v.shadowLink j name) = none)
    (hr : v.localRenameBase link (v.shadowLink j name) = some v') : Kept v₀ id v' := by
  simp only [LocalVolume.localRenameBase, hlink, Option.bind_some, hnew] at hr
  split_ifs at hr
  rw [Option.some_inj] at hr
  subst hr
  by_cases hj : id = j
  · subst hj
    obtain ⟨m, hl, hm⟩ := h.unsaved
    have hl : hl = [link] := by
      have hmem := (hm.names link).mpr hlink
      have hall : ∀ l ∈ hl, l = link := fun l hl => hone rfl l ((hm.names l).mp hl)
      exact perm_singleton.mp
        ((perm_ext_iff_of_nodup hm.nodup (nodup_singleton link)).mpr fun l =>
          ⟨fun hl => mem_singleton.mpr (hall l hl), fun hl => mem_singleton.mp hl ▸ hmem⟩)
    subst hl
    change Kept v₀ id ((v.renamed id link _).hardlinkReplace id (v.ftype id) link _)
    rw [hm.ftype]
    have honly := OnlyMetadata.hardlinkReplace id .reg link (v.shadowLink id name)
      (v.renamed id link (v.shadowLink id name))
    refine ⟨(h.tidy.rename hlink (lstat_renamed hnew) rfl rfl).onlyMetadata honly,
      honly.shadowDir.trans h.shadowDir, ⟨_, _, hm.renamed hnew⟩, fun l hl => Or.inr ⟨name, ?_⟩⟩
    rw [← (hm.renamed hnew).names, mem_singleton] at hl
    rw [hl, shadowLink, shadowLink, h.shadowDir]
  · exact (h.renamed_other hlink hj hnew).onlyMetadata (OnlyMetadata.hardlinkReplace ..) hj

end LocalVolume

/-! ## The recursion -/

section recursion

variable {P : Unlinking → Prop} {move : MoveToShadow} {u : Unlinking}

/-- What the recursion keeps: the lookups, the calls for the names and the moves of directories keep it. -/
structure UnlinkInv (move : MoveToShadow) (P : Unlinking → Prop) : Prop where
  lookup : ∀ u id, P u → P { u with vol := (u.vol.lookupMetadata id (u.vol.ftype id) true).1 }
  itself : ∀ link u, P u → P (recursiveUnlinkItself move link u).2
  moveDir : ∀ moveToShadow ∈ move, ∀ u link id, u.vol.lstat link = some id → u.vol.ftype id = .dir →
    u.vol.isMaster = false → (u.vol.metadata id).all (·.masterFh = none) → P u →
    P (moveToShadow id link (u.note move link)).2

section
variable (h : UnlinkInv move P)

include h

theorem UnlinkInv.unlinkContents
    {contents : Link → FileId → Option FileMetadata → Unlink}
    (hcontents : ∀ link id m u, u.vol.lstat link = some id → u.vol.ftype id = .dir → u.vol.metadata id = m →
      P u → P (contents link id m u).2)
    (link : Link) (u : Unlinking) (hu : P u) : P (unlinkContents contents link u).2 := by
  unfold ZFS.unlinkContents
  split
  · exact hu
  · rename_i id hlink
    split_ifs with hdir
    · have honly := LocalVolume.OnlyMetadata.lookupMetadata id .dir true u.vol
      have hlookup := h.lookup u id hu
      rw [hdir] at hlookup
      exact hcontents _ _ _ _ ((honly.lstat link).trans hlink) ((congrFun honly.ftype id).trans hdir)
        (u.vol.lookupMetadata_metadata id .dir) hlookup
    · exact hu

theorem UnlinkInv.contents (fuel : ℕ) :
    ∀ link id m u, u.vol.lstat link = some id → u.vol.ftype id = .dir → u.vol.metadata id = m → P u →
      P (recursiveUnlinkContents move fuel link id m u).2 := by
  induction fuel with
  | zero =>
    intro link id m u _ _ _ hu
    exact hu
  | succ fuel ih =>
    intro link id m u hlink hdir hm hu
    simp only [recursiveUnlinkContents]
    split
    · rename_i moveToShadow hmove
      rw [Option.filter_eq_some_iff] at hmove
      simp only [Bool.and_eq_true, Bool.not_eq_true'] at hmove
      exact h.moveDir moveToShadow hmove.1 u link id hlink hdir hmove.2.1 (hm ▸ hmove.2.2) hu
    · have hsub := forEach_inv ZFS_OK (fun name => h.unlinkContents ih ⟨id, name⟩) (u.vol.readdir id) u hu
      split_ifs
      · exact hsub
      · exact forEach_inv ZFS_OK (fun name => h.itself ⟨id, name⟩) _ _ hsub

theorem UnlinkInv.start (fuel : ℕ) (link : Link) (u : Unlinking) (hu : P u) :
    P (recursiveUnlinkStart move fuel link u).2 := by
  have hcontents := h.unlinkContents (h.contents fuel) link u hu
  simp only [recursiveUnlinkStart]
  split_ifs
  · exact hu
  · exact hcontents
  · exact h.itself link _ hcontents

theorem UnlinkInv.path (fuel : ℕ) (link : Link) (u : Unlinking) (hu : P u) :
    P (recursiveUnlinkPath move fuel link u).2 :=
  h.start fuel link _ (h.lookup u link.parent hu)

end

end recursion

/-! ## A move to the shadow -/

section move

open LocalVolume

variable {v₀ : LocalVolume} {id j : FileId} {u : Unlinking} {link : Link}

theorem note_vol (u : Unlinking) (move : MoveToShadow) (link : Link) : (u.note move link).vol = u.vol := by
  unfold Unlinking.note
  split_ifs <;> rfl

theorem recursiveUnlinkItself_none_steps (link : Link) (u : Unlinking) :
    (recursiveUnlinkItself none link u).2.steps = u.steps := by
  simp only [recursiveUnlinkItself, Unlinking.note, Option.isSome_none, Bool.false_eq_true, if_false,
    Option.filter_none]
  split
  · rfl
  · split_ifs <;> rfl

/-- Without `move_to_shadow_p` nothing is noted. -/
theorem unlinkInv_steps (steps : List UnlinkStep) : UnlinkInv none fun u => u.steps = steps where
  lookup _ _ hu := hu
  itself link u hu := (recursiveUnlinkItself_none_steps link u).trans hu
  moveDir := by simp

theorem moveToShadowBase_steps (fuel : ℕ) (id : FileId) (link : Link) (u : Unlinking) :
    (moveToShadowBase fuel id link u).2.steps = u.steps := by
  have h := (unlinkInv_steps u.steps).path fuel (u.vol.shadowLink id link.name) u rfl
  simp only [moveToShadowBase]
  split_ifs
  · exact h
  · split <;> exact h

variable (fuel : ℕ) (h : Kept v₀ id u.vol) (hlink : u.vol.lstat link = some j)
  (hone : j = id → ∀ l, u.vol.lstat l = some id → l = link)
include h hlink hone

/-- The name in the shadow is made free: it is free already, or it is a further name of another file. -/
theorem clearShadow {name : Name} (hne : link ≠ u.vol.shadowLink j name) :
    let u' := (recursiveUnlinkPath none fuel (u.vol.shadowLink j name) u).2
    Kept v₀ id u'.vol ∧ u'.vol.shadowDir = u.vol.shadowDir ∧ u'.vol.lstat (u.vol.shadowLink j name) = none ∧
      ∀ l ≠ u.vol.shadowLink j name, u'.vol.lstat l = u.vol.lstat l := by
  set shadow := u.vol.shadowLink j name with hshadow
  have honly := OnlyMetadata.lookupMetadata shadow.parent (u.vol.ftype shadow.parent) true u.vol
  have hkept := h.lookupMetadata shadow.parent true
  simp only [recursiveUnlinkPath]
  generalize (u.vol.lookupMetadata shadow.parent (u.vol.ftype shadow.parent) true).1 = v at *
  cases hs : u.vol.lstat shadow with
  | none =>
    have hs' : v.lstat shadow = none := (honly.lstat shadow).trans hs
    simp only [recursiveUnlinkStart, if_pos hs']
    exact ⟨hkept, honly.shadowDir, hs', fun l _ => honly.lstat l⟩
  | some k =>
    have hk : k = j := h.tidy.shadow j name k hs
    subst hk
    have hs' : v.lstat shadow = some k := (honly.lstat shadow).trans hs
    have hdir : v.ftype k ≠ .dir := by
      intro hdir
      rw [honly.ftype] at hdir
      exact hne (h.tidy.dir k link shadow hdir hlink hs)
    have hid : id ≠ k := by
      rintro rfl
      exact hne (hone rfl shadow hs).symm
    have hcleared : (recursiveUnlinkStart none fuel shadow { u with vol := v }).2.vol = v.remove k shadow := by
      simp [recursiveUnlinkStart, ZFS.unlinkContents, recursiveUnlinkItself, Unlinking.note, hs', hdir, remove]
    rw [hcleared]
    refine ⟨hkept.remove_other hs' hid, (remove_only v k shadow).shadowDir.trans honly.shadowDir, ?_, ?_⟩
    · rw [lstat_remove, if_pos rfl]
    · intro l hl
      rw [lstat_remove, if_neg hl, honly.lstat]

/-- A file or a directory whose only name is not its name in the shadow. -/
theorem moveToShadowBase_keeps (hne : link ≠ u.vol.shadowLink j link.name) :
    Kept v₀ id (moveToShadowBase fuel j link u).2.vol := by
  obtain ⟨hkept, hdir, hfree, hothers⟩ := clearShadow fuel h hlink hone hne
  simp only [moveToShadowBase]
  generalize recursiveUnlinkPath none fuel (u.vol.shadowLink j link.name) u = cleared at *
  obtain ⟨r, u'⟩ := cleared
  have hshadow : u.vol.shadowLink j link.name = u'.vol.shadowLink j link.name := by
    simp only [shadowLink] at hdir ⊢
    rw [hdir]
  have hlink' : u'.vol.lstat link = some j := (hothers link hne).trans hlink
  have hone' : j = id → ∀ l, u'.vol.lstat l = some id → l = link := by
    intro hj l hl
    by_cases hs : l = u.vol.shadowLink j link.name
    · rw [hs, hfree] at hl
      cases hl
    · exact hone hj l ((hothers l hs).symm.trans hl)
  rw [hshadow] at hfree ⊢
  split_ifs
  · exact hkept
  · split
    · exact hkept
    · rename_i v' hrename
      exact hkept.localRenameBase hlink' hone' hfree hrename

end move

/-! ## Sequences of calls -/

/-- The calls that lose nothing. What is moved does not have its name in the shadow yet; a file with one
name and no master file handle is modified if the volume has its master here; and when one of two names
of a modified file goes that has a master file handle, the other name is too long for the metadata. -/
def UnlinkStep.Safe (s : UnlinkStep) : Prop :=
  ∀ id ∈ s.vol.lstat s.link,
    (s.vol.moves id → s.link ≠ s.vol.shadowLink id s.link.name) ∧
    (s.vol.ftype id = .reg → ∀ m ∈ s.vol.metadata id,
      (s.vol.isMaster → m.modifiedTree ∨ m.masterFh ≠ none ∨ s.vol.nHardlinks id ≠ 1) ∧
      (m.modifiedTree → m.masterFh ≠ none → ∀ hl ∈ s.vol.hardlinks id, hl.length = 2 →
        ∀ l ∈ hl.erase s.link, METADATA_NAME_SIZE ≤ l.name.length))

instance : DecidablePred UnlinkStep.Safe := fun s => Option.decidableForallMem (s.vol.lstat s.link)

section calls

open LocalVolume

variable {v₀ : LocalVolume} {id : FileId} {u : Unlinking} {link : Link}

def Unlinking.Keeps (v₀ : LocalVolume) (id : FileId) (u : Unlinking) : Prop :=
  (∀ s ∈ u.steps, s.Safe) → Kept v₀ id u.vol

theorem note_safe (fuel : ℕ) (h : u.Keeps v₀ id)
    (hs : ∀ s ∈ (u.note (some (moveToShadowBase fuel)) link).steps, s.Safe) :
    Kept v₀ id u.vol ∧ UnlinkStep.Safe ⟨u.vol, link⟩ := by
  simp only [Unlinking.note, Option.isSome_some, if_true, forall_mem_append, forall_mem_singleton] at hs
  exact ⟨h hs.1, hs.2⟩

theorem Kept.remove (h : Kept v₀ id u.vol) {j : FileId} (hlink : u.vol.lstat link = some j)
    (hstay : u.vol.keepsInShadow j = false) (hsafe : UnlinkStep.Safe ⟨u.vol, link⟩) :
    Kept v₀ id (u.vol.remove j link) := by
  by_cases hj : id = j
  swap
  · exact h.remove_other hlink hj
  subst hj
  obtain ⟨m, hl, hm⟩ := h.unsaved
  obtain ⟨-, hreg⟩ := hsafe id hlink
  obtain ⟨hmaster, hflag⟩ := hreg hm.ftype m hm.metadata
  have hmem := (hm.names link).mpr hlink
  have hlen : hl.length ≠ 1 := by
    intro hlen
    rw [hm.nHardlinks] at hmaster
    simp only [keepsInShadow, hm.nHardlinks, hlen, hm.metadata] at hstay hmaster
    have := hm.dirty
    cases hmod : m.modifiedTree <;> cases hfh : m.masterFh <;> cases hma : u.vol.isMaster <;> simp_all
  obtain ⟨m', hm'⟩ := hm.remove hmem hlen fun hmod hfh htwo => by
    rcases hm.stores with ⟨_, hfile⟩ | ⟨l, _, _, rfl⟩
    · exact hflag hmod hfh hl hfile htwo
    · exact absurd rfl hlen
  have honly := remove_only u.vol id link
  refine ⟨(h.tidy.unlink link).onlyMetadata honly, honly.shadowDir.trans h.shadowDir, ⟨m', _, hm'⟩, ?_⟩
  intro l hl
  rw [lstat_remove] at hl
  split_ifs at hl
  exact h.names l hl

theorem recursiveUnlinkItself_keeps (fuel : ℕ) (link : Link) (u : Unlinking) (h : u.Keeps v₀ id) :
    (recursiveUnlinkItself (some (moveToShadowBase fuel)) link u).2.Keeps v₀ id := by
  simp only [recursiveUnlinkItself, note_vol]
  split
  · intro hs
    rw [note_vol]
    exact (note_safe fuel h hs).1
  · rename_i j hlink
    cases hmove : u.vol.keepsInShadow j with
    | true =>
      intro hs
      simp only [Option.filter_some, if_true] at hs ⊢
      rw [moveToShadowBase_steps] at hs
      obtain ⟨hkept, hsafe⟩ := note_safe fuel h hs
      apply moveToShadowBase_keeps
      · rwa [note_vol]
      · rwa [note_vol]
      · -- a file that is moved has one name
        rintro rfl l hl
        obtain ⟨m, names, hm⟩ := hkept.unsaved
        simp only [keepsInShadow, hm.nHardlinks, Bool.and_eq_true, decide_eq_true_eq] at hmove
        obtain ⟨k, rfl⟩ := length_eq_one_iff.mp hmove.1
        rw [note_vol, ← hm.names, mem_singleton] at hl
        rw [← hm.names, mem_singleton] at hlink
        rw [hl, hlink]
      · rw [note_vol]
        exact (hsafe j hlink).1 (by simp [moves, hmove])
    | false =>
      simp only [Option.filter_some, Bool.false_eq_true, if_false]
      split_ifs
      · intro hs
        rw [note_vol]
        exact (note_safe fuel h hs).1
      · intro hs
        obtain ⟨hkept, hsafe⟩ := note_safe fuel h hs
        exact Kept.remove hkept hlink hmove hsafe

theorem unlinkInv_keeps (v₀ : LocalVolume) (id : FileId) (fuel : ℕ) :
    UnlinkInv (some (moveToShadowBase fuel)) (Unlinking.Keeps v₀ id) where
  lookup u j hu hs := (hu hs).lookupMetadata j true
  itself := recursiveUnlinkItself_keeps fuel
  moveDir := by
    rintro _ ⟨⟩ u link j hlink hdir hmaster hfh hu hs
    rw [moveToShadowBase_steps] at hs
    obtain ⟨hkept, hsafe⟩ := note_safe fuel hu hs
    apply moveToShadowBase_keeps
    · rwa [note_vol]
    · rwa [note_vol]
    · -- the file is not a directory
      rintro rfl
      obtain ⟨m, hl, hm⟩ := hkept.unsaved
      rw [hm.ftype] at hdir
      cases hdir
    · rw [note_vol]
      exact (hsafe j hlink).1 (by simp [moves, hdir, hmaster, hfh])

theorem recursiveUnlinks_inv (v₀ : LocalVolume) (id : FileId) (fuel : ℕ) (links : List Link) :
    ∀ u : Unlinking, u.Keeps v₀ id → (recursiveUnlinks fuel links u).Keeps v₀ id := by
  induction links with
  | nil =>
    intro u hu
    exact hu
  | cons link links ih =>
    intro u hu
    exact ih _ ((unlinkInv_keeps v₀ id fuel).path fuel link u hu)

/-- Whatever the tree, the names and the calls: as long as the calls are safe, a regular file with
modified data or without a master file handle has a name, and its names are those it had or names in
the shadow. -/
theorem recursiveUnlinks_keep (v : LocalVolume) (htidy : v.Tidy) (id : FileId) (hunsaved : v.Unsaved id)
    (fuel : ℕ) (links : List Link)
    (hsafe : ∀ s ∈ (recursiveUnlinks fuel links ⟨v, []⟩).steps, s.Safe) :
    let v' := (recursiveUnlinks fuel links ⟨v, []⟩).vol
    v'.Unsaved id ∧ (∃ l, v'.lstat l = some id) ∧
      ∀ l, v'.lstat l = some id → v.lstat l = some id ∨ ∃ name, l = v.shadowLink id name := by
  have hkept := recursiveUnlinks_inv v id fuel links ⟨v, []⟩
    (fun _ => ⟨htidy, rfl, hunsaved, fun l hl => Or.inl hl⟩) hsafe
  obtain ⟨m, hl, hm⟩ := hkept.unsaved
  obtain ⟨l, hl⟩ := exists_mem_of_ne_nil hl hm.named
  exact ⟨hkept.unsaved, ⟨l, (hm.names l).mp hl⟩, hkept.names⟩

/-- A modified file with a name in the directory `d` and another beside it. -/
def twoNames (masterFh : Option ZfsFh) : LocalVolume where
  isMaster := false
  entries := [(⟨(1, 1), [100]⟩, (1, 2)), (⟨(1, 2), [97]⟩, (1, 3)), (⟨(1, 1), [98]⟩, (1, 3))]
  ftype id := if id = (1, 3) then .reg else .dir
  metadata id :=
    if id = (1, 3) then some ⟨true, false, masterFh, .reg, none⟩
    else some ⟨false, false, some ⟨2, 1, 1, 7, 1⟩, .dir, none⟩
  hardlinks id := if id = (1, 3) then some [⟨(1, 2), [97]⟩, ⟨(1, 1), [98]⟩] else none
  shadowDir _ := (1, 4)

theorem twoNames_lstat {masterFh : Option ZfsFh} {l : Link} {j : FileId} (h : (twoNames masterFh).lstat l = some j) :
    (l = ⟨(1, 1), [100]⟩ ∧ j = (1, 2)) ∨ (l = ⟨(1, 2), [97]⟩ ∧ j = (1, 3)) ∨ (l = ⟨(1, 1), [98]⟩ ∧ j = (1, 3)) := by
  simp only [lstat, twoNames, lookup_cons, lookup_nil] at h
  split at h
  · simp_all
  · split at h
    · simp_all
    · split at h <;> simp_all

theorem twoNames_tidy (masterFh : Option ZfsFh) : (twoNames masterFh).Tidy where
  shadow id name j h := by
    have hparent : ((twoNames masterFh).shadowLink id name).parent = (1, 4) := rfl
    rcases twoNames_lstat h with ⟨h, _⟩ | ⟨h, _⟩ | ⟨h, _⟩
    all_goals
      rw [h] at hparent
      cases hparent
  dir id l l' hd hl hl' := by
    rcases twoNames_lstat hl with ⟨rfl, rfl⟩ | ⟨rfl, rfl⟩ | ⟨rfl, rfl⟩
    · rcases twoNames_lstat hl' with ⟨rfl, _⟩ | ⟨rfl, hj⟩ | ⟨rfl, hj⟩
      · rfl
      · cases hj
      · cases hj
    · cases hd
    · cases hd

theorem twoNames_unsaved (masterFh : Option ZfsFh) : (twoNames masterFh).Unsaved (1, 3) :=
  ⟨_, _, rfl, rfl, rfl, Or.inl rfl, Or.inl ⟨rfl, rfl⟩, by decide, fun l => by
    constructor
    · intro hl
      simp only [mem_cons, not_mem_nil, or_false] at hl
      rcases hl with rfl | rfl <;> rfl
    · intro hl
      rcases twoNames_lstat hl with ⟨rfl, hj⟩ | ⟨rfl, _⟩ | ⟨rfl, _⟩
      · cases hj
      · simp
      · simp, by simp⟩

/-- Without a master file handle the last name becomes one in the shadow. -/
theorem recursiveUnlinks_keep_twoNames :
    ∃ l, (recursiveUnlinks 2 [⟨(1, 1), [100]⟩, ⟨(1, 1), [98]⟩] ⟨twoNames none, []⟩).vol.lstat l = some (1, 3) :=
  (recursiveUnlinks_keep (twoNames none) (twoNames_tidy none) (1, 3) (twoNames_unsaved none) 2 _
    (by decide +kernel)).2.1

/-- With a master file handle the first call clears the flag and the second one deletes the file. -/
theorem recursiveUnlinks_lose :
    ∃ v id, v.Tidy ∧ v.Unsaved id ∧
      ∃ fuel links, ∀ l, (recursiveUnlinks fuel links ⟨v, []⟩).vol.lstat l ≠ some id := by
  refine ⟨twoNames (some ⟨2, 1, 1, 8, 1⟩), (1, 3), twoNames_tidy _, twoNames_unsaved _, 2,
    [⟨(1, 1), [100]⟩, ⟨(1, 1), [98]⟩], fun l => ?_⟩
  have hnone : (recursiveUnlinks 2 [⟨(1, 1), [100]⟩, ⟨(1, 1), [98]⟩]
      ⟨twoNames (some ⟨2, 1, 1, 8, 1⟩), []⟩).vol.entries = [] := by decide +kernel
  rw [lstat, hnone]
  exact nofun

end calls

end ZFS
