import ZlomekFS.Lib.Tables
import ZlomekFS.Spec.LocalVolume

/-! What the functions of `metadata.c` leave alone: each changes the metadata of one file. A name in the
shadow tells which file has it. -/

namespace ZFS
open Tables

/-! ## Names in the shadow -/

theorem hexDigit_inj : ∀ a < 16, ∀ b < 16, hexDigit a = hexDigit b → a = b := by decide

theorem hexDigits_length (k n : ℕ) : (hexDigits k n).length = k := by
  induction k generalizing n with
  | zero => rfl
  | succ k ih => simp [hexDigits, ih]

theorem hexDigits_inj (k : ℕ) : ∀ n m, n < 16 ^ k → m < 16 ^ k → hexDigits k n = hexDigits k m → n = m := by
  induction k with
  | zero =>
    intro n m hn hm _
    omega
  | succ k ih =>
    intro n m hn hm h
    rw [pow_succ] at hn hm
    obtain ⟨hhigh, hlow⟩ := List.append_inj h (by simp [hexDigits_length])
    have hdiv := ih (n / 16) (m / 16) (by omega) (by omega) hhigh
    have hmod := hexDigit_inj (n % 16) (by omega) (m % 16) (by omega) (List.singleton_inj.mp hlow)
    omega

theorem shadowName_inj {id id' : FileId} {name name' : Name} (h : shadowName id name = shadowName id' name') :
    id = id' := by
  have htail := (List.append_inj' h (by simp [hexDigits_length])).2
  obtain ⟨hdev, hino⟩ := List.append_inj (List.cons_inj_right _ |>.mp htail) (by simp [hexDigits_length])
  have hlt (n : UInt32) : n.toNat < 16 ^ 8 := n.toNat_lt
  have hdev := hexDigits_inj 8 _ _ (hlt _) (hlt _) hdev
  have hino := hexDigits_inj 8 _ _ (hlt _) (hlt _) hino
  exact Prod.ext (UInt32.toNat_inj.mp hdev) (UInt32.toNat_inj.mp hino)

theorem shadowName_length (id : FileId) (name : Name) : (shadowName id name).length < METADATA_NAME_SIZE := by
  simp only [shadowName, METADATA_NAME_SIZE, List.length_append, List.length_take, List.length_cons,
    hexDigits_length]
  omega

namespace LocalVolume

variable {v v' v'' : LocalVolume} {id j : FileId} {m : FileMetadata} {link l : Link}

theorem shadowLink_inj {name name' : Name} (h : v.shadowLink id name = v.shadowLink j name') : id = j :=
  shadowName_inj (congrArg Link.name h)

/-! ## Directories -/

theorem lstat_unlink : (v.unlink link).lstat l = if l = link then none else v.lstat l := lookup_filter_ne v.entries

theorem lookup_rename {old new : Link} (hnew : v.lstat new = none) :
    ((v.unlink old).entries ++ [(new, id)]).lookup l =
      if l = new then some id else if l = old then none else v.lstat l := by
  have hfree : (v.unlink old).lstat new = none := by
    rw [lstat_unlink, hnew, ite_self]
  rw [lookup_concat hfree]
  exact if_congr Iff.rfl rfl lstat_unlink

/-! ## Metadata -/

/-- `v'` differs from `v` at most in the metadata of `id`. -/
structure OnlyMetadata (id : FileId) (v v' : LocalVolume) : Prop where
  isMaster : v'.isMaster = v.isMaster
  entries : v'.entries = v.entries
  ftype : v'.ftype = v.ftype
  shadowDir : v'.shadowDir = v.shadowDir
  metadata : ∀ j ≠ id, v'.metadata j = v.metadata j
  hardlinks : ∀ j ≠ id, v'.hardlinks j = v.hardlinks j

namespace OnlyMetadata

theorem refl (id : FileId) (v : LocalVolume) : OnlyMetadata id v v :=
  ⟨rfl, rfl, rfl, rfl, fun _ _ => rfl, fun _ _ => rfl⟩

theorem trans (h : OnlyMetadata id v v') (h' : OnlyMetadata id v' v'') : OnlyMetadata id v v'' where
  isMaster := h'.isMaster.trans h.isMaster
  entries := h'.entries.trans h.entries
  ftype := h'.ftype.trans h.ftype
  shadowDir := h'.shadowDir.trans h.shadowDir
  metadata j hj := (h'.metadata j hj).trans (h.metadata j hj)
  hardlinks j hj := (h'.hardlinks j hj).trans (h.hardlinks j hj)

theorem setMetadata (id : FileId) (m : FileMetadata) (v : LocalVolume) : OnlyMetadata id v (v.setMetadata id m) :=
  ⟨rfl, rfl, rfl, rfl, fun _ hj => Function.update_of_ne hj _ _, fun _ _ => rfl⟩

theorem setHardlinks (id : FileId) (hl : Option (List Link)) (v : LocalVolume) :
    OnlyMetadata id v (v.setHardlinks id hl) :=
  ⟨rfl, rfl, rfl, rfl, fun _ _ => rfl, fun _ hj => Function.update_of_ne hj _ _⟩

theorem lookupMetadata (id : FileId) (type : FType) (insert : Bool) (v : LocalVolume) :
    OnlyMetadata id v (v.lookupMetadata id type insert).1 := by
  unfold LocalVolume.lookupMetadata
  split
  · split_ifs
    · exact setMetadata ..
    · exact refl ..
  · split_ifs
    · exact setMetadata ..
    · exact refl ..
    · exact (setMetadata ..).trans (setHardlinks ..)
    · exact refl ..

theorem writeHardlinks (id : FileId) (m : FileMetadata) (valid : Bool) (hl : List Link) (v : LocalVolume) :
    OnlyMetadata id v (v.writeHardlinks id m valid hl) := by
  unfold LocalVolume.writeHardlinks
  split
  · exact setHardlinks ..
  · split_ifs
    · exact setHardlinks ..
    · exact (setHardlinks ..).trans (setMetadata ..)
    · exact (setMetadata ..).trans (setHardlinks ..)

theorem deleteMetadata (id : FileId) (m : FileMetadata) (valid : Bool) (link : Link) (v : LocalVolume) :
    OnlyMetadata id v (v.deleteMetadata id m valid link) := by
  unfold LocalVolume.deleteMetadata
  split
  · split_ifs
    · exact writeHardlinks ..
    · exact (setHardlinks ..).trans (setMetadata ..)
  · exact setMetadata ..

theorem hardlinkReplace (id : FileId) (type : FType) (old new : Link) (v : LocalVolume) :
    OnlyMetadata id v (v.hardlinkReplace id type old new) := by
  unfold LocalVolume.hardlinkReplace
  dsimp only
  split_ifs
  · exact (lookupMetadata ..).trans (writeHardlinks ..)
  · exact lookupMetadata ..

theorem lstat (h : OnlyMetadata id v v') (l : Link) : v'.lstat l = v.lstat l := by
  unfold LocalVolume.lstat
  rw [h.entries]

end OnlyMetadata

theorem lookupMetadata_metadata (v : LocalVolume) (id : FileId) (type : FType) :
    (v.lookupMetadata id type true).1.metadata id = (v.lookupMetadata id type true).2 := by
  unfold lookupMetadata
  split
  · exact Function.update_self id _ v.metadata
  · rename_i m hm
    simp only [if_true]
    split_ifs
    · exact Function.update_self id _ v.metadata
    · exact Function.update_self id _ v.metadata
    · exact hm

theorem lookupMetadata_of_type {type : FType} {insert : Bool} (hm : v.metadata id = some m) (hbad : m.type ≠ .bad)
    (htype : type = .bad ∨ type = m.type) : v.lookupMetadata id type insert = (v, some m) := by
  unfold lookupMetadata
  rw [hm]
  rcases htype with rfl | rfl <;> simp [hbad]

def Stores (v : LocalVolume) (id : FileId) (m : FileMetadata) (hl : List Link) : Prop :=
  (m.link = none ∧ v.hardlinks id = some hl) ∨ ∃ link, m.link = some link ∧ v.hardlinks id = none ∧ hl = [link]

theorem Stores.readHardlinks {hl : List Link} (h : v.Stores id m hl) (hbad : m.type ≠ .bad) :
    v.readHardlinks id (some m) = hl := by
  rcases h with ⟨hlink, hfile⟩ | ⟨link, hlink, hfile, rfl⟩
  · simp [LocalVolume.readHardlinks, hbad, hlink, hfile]
  · simp [LocalVolume.readHardlinks, hbad, hlink]

end LocalVolume

end ZFS
