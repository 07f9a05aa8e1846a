import ZlomekFS.Proofs.RecursiveUnlink
import ZlomekFS.Spec.UpdateDir

/-! The directory that `update_dir` works on lies on a volume: `recursive_unlink_itself` moves a file to the shadow in
both or in none, and otherwise leaves the same of it. -/

namespace ZFS
open List Function LocalVolume

/-- The record of the file `id` and its names `hl` are what is known of it in the directory `dir`. -/
structure FileState.Shows (v : LocalVolume) (place : Link → NamePlace) (dir id : FileId) (hl : List Link)
    (names : List Name) (f : FileState) : Prop where
  nodup : hl.Nodup
  record : ∃ m, v.metadata id = some m ∧ m.type = f.type ∧ m.masterFh = f.masterFh ∧ m.modifiedTree = f.modifiedTree ∧
    (hl ≠ [] → v.Stores id m hl ∧ v.ftype id = m.type ∧ m.type ≠ .bad)
  names : names.Perm ((hl.filter (·.parent = dir)).map (·.name))
  others : f.others.Perm ((hl.filter (·.parent ≠ dir)).map place)

variable {place : Link → NamePlace} {dir id : FileId} {hl : List Link} {link : Link} {names names' : List Name}
  {f : FileState} {others : List NamePlace} {m : FileMetadata}

theorem deleteMetadata_leftRecord (hperm : (names ++ f.others.map (·.name)).Perm (hl.map (·.name)))
    (htype : m.type = f.type) (hfh : m.masterFh = f.masterFh) (htree : m.modifiedTree = f.modifiedTree) :
    (leftRecord m hl).type = (f.deleteMetadata names).type ∧
      (leftRecord m hl).masterFh = (f.deleteMetadata names).masterFh ∧
      (leftRecord m hl).modifiedTree = (f.deleteMetadata names).modifiedTree ∧
      (f.deleteMetadata names).others = f.others := by
  unfold FileState.deleteMetadata
  match hl with
  | [] =>
    have hnil := hperm.eq_nil
    rw [hnil]
    exact ⟨rfl, rfl, rfl, (map_eq_nil_iff.mp (append_eq_nil_iff.mp hnil).2).symm⟩
  | [l] =>
    rw [perm_singleton.mp hperm, leftRecord]
    dsimp only
    split_ifs
    · exact ⟨htype, hfh, rfl, rfl⟩
    · exact ⟨htype, hfh, htree, rfl⟩
  | _ :: _ :: _ =>
    have hlen := hperm.length_eq
    split
    · next hnil => simp [hnil] at hlen
    · next hone => simp [hone] at hlen
    · exact ⟨htype, hfh, htree, rfl⟩

variable (hplace : ∀ l, (place l).name = l.name)
include hplace

theorem names_perm (hnames : names.Perm ((hl.filter (·.parent = dir)).map (·.name)))
    (hothers : others.Perm ((hl.filter (·.parent ≠ dir)).map place)) :
    (names ++ others.map (·.name)).Perm (hl.map (·.name)) := by
  have hmap := hothers.map (·.name)
  simp only [map_map, comp_def, hplace, ne_eq, decide_not] at hmap
  refine (hnames.append hmap).trans ?_
  rw [← map_append]
  exact (filter_append_perm _ hl).map _

variable {u : Unlinking} (hmaster : u.vol.isMaster = false) (hat : u.vol.lstat link = some id) (hlink : link ∈ hl)
include hmaster hat hlink

section
variable (h : f.Shows u.vol place dir id hl names) (hempty : u.vol.ftype id ≠ .dir ∨ u.vol.readdir id = [])
  (move : FileId → Link → Unlink)
include h hempty

/-- A name goes or the file is moved; `names'` and `others` are without the name. -/
theorem FileState.Shows.itself (hnames : names'.Perm (((hl.erase link).filter (·.parent = dir)).map (·.name)))
    (hothers : others.Perm (((hl.erase link).filter (·.parent ≠ dir)).map place)) :
    ∃ u', recursiveUnlinkItself (some move) link u =
        (if names.length + f.others.length = 1 ∧ f.unsaved then move id link (u.note (some move) link) else (ZFS_OK, u')) ∧
      ({ f with others := others }.deleteMetadata names').Shows u'.vol place dir id (hl.erase link) names' := by
  obtain ⟨m, hm, hmtype, hfh, htree, hstored⟩ := h.record
  obtain ⟨hstores, hftype, hbad⟩ := hstored (ne_nil_of_mem hlink)
  refine ⟨{ u.note (some move) link with vol := u.vol.remove id link }, ?_, ?_⟩
  · have hlen := (names_perm hplace h.names h.others).length_eq
    simp only [length_append, length_map] at hlen
    have hkeeps : u.vol.keepsInShadow id = decide (names.length + f.others.length = 1 ∧ f.unsaved) := by
      rw [hlen, keepsInShadow, nHardlinks, lookupMetadata_of_type hm hbad (Or.inl rfl), hstores.readHardlinks hbad, hm]
      simp [hmaster, FileState.unsaved, htree, hfh]
    have hfull : ¬ (u.vol.ftype id = .dir ∧ u.vol.readdir id ≠ []) := fun hc => hempty.elim (· hc.1) hc.2
    simp only [recursiveUnlinkItself, note_vol, hat, hkeeps, Option.filter_some, decide_eq_true_eq]
    split_ifs <;> rfl
  · obtain ⟨hmetadata, hleft⟩ := remove_spec hm hftype hstores hlink
    obtain ⟨htype', hfh', htree', hothers'⟩ := deleteMetadata_leftRecord (m := m) (f := { f with others := others })
      (names_perm hplace hnames hothers) hmtype hfh htree
    refine ⟨h.nodup.erase link, ⟨_, hmetadata, htype', hfh', htree', fun hne => ?_⟩, hnames, hothers' ▸ hothers⟩
    obtain ⟨hstores, hsame⟩ := hleft hne
    rw [hsame, (remove_only u.vol id link).ftype]
    exact ⟨hstores, hftype, hbad⟩

/-- A name outside of the directory, as `FileState.unlinkOther` has it. -/
theorem FileState.Shows.unlinkOther (hinj : Injective place) (hother : link.parent ≠ dir) :
    ∃ u', recursiveUnlinkItself (some move) link u =
        (if names = [] ∧ f.others.length = 1 ∧ f.unsaved then move id link (u.note (some move) link) else (ZFS_OK, u')) ∧
      ({ f with others := f.others.erase (place link) }.deleteMetadata names).Shows u'.vol place dir id (hl.erase link)
        names := by
  have hmem : place link ∈ f.others :=
    h.others.mem_iff.mpr (mem_map_of_mem (mem_filter.mpr ⟨hlink, by simpa using hother⟩))
  have hpos := length_pos_of_mem hmem
  have hcond : names.length + f.others.length = 1 ∧ f.unsaved ↔ names = [] ∧ f.others.length = 1 ∧ f.unsaved := by
    rw [← length_eq_zero_iff, ← and_assoc]
    exact and_congr_left fun _ => by omega
  simp only [← hcond]
  refine h.itself hplace hmaster hat hlink hempty move ?_ ?_
  · rw [← erase_filter, erase_of_not_mem (by simpa using fun _ => hother)]
    exact h.names
  · rw [← erase_filter, map_erase hinj]
    exact h.others.erase _

end

namespace LocalDir

variable {d : LocalDir} {file : ZfsFh} (h : (d.file file).Shows u.vol place link.parent id hl (d.names file))
include h

/-- A name in the directory, as `unlinkItself` has it. -/
theorem unlink_shows (hempty : u.vol.ftype id ≠ .dir ∨ u.vol.readdir id = []) (move : FileId → Link → Unlink) :
    ∃ u', recursiveUnlinkItself (some move) link u =
        (if d.nHardlinks file = 1 ∧ (d.file file).unsaved then move id link (u.note (some move) link) else (ZFS_OK, u')) ∧
      ((d.unlink link.name file).file file).Shows u'.vol place link.parent id (hl.erase link)
        ((d.unlink link.name file).names file) := by
  have hnames : (d.unlink link.name file).names file = (d.names file).filter (· ≠ link.name) := by
    simp [unlink, setFile, names, removeName, filter_map, filter_filter, comp_def, Bool.and_comm]
  have hfile : (d.unlink link.name file).file file =
      (d.file file).deleteMetadata ((d.unlink link.name file).names file) := update_self ..
  rw [hfile]
  refine h.itself hplace hmaster hat hlink hempty move ?_ ?_
  · rw [hnames]
    refine (h.names.filter _).trans (Perm.of_eq ?_)
    rw [h.nodup.erase_eq_filter, filter_map, filter_filter, filter_filter]
    refine congrArg _ (filter_congr fun l _ => ?_)
    rw [Bool.eq_iff_iff]
    simp only [comp_apply, Bool.and_eq_true, decide_eq_true_eq, bne_iff_ne, ne_eq]
    cases l; cases link
    simp only [Link.mk.injEq]
    tauto
  · rw [← erase_filter, erase_of_not_mem (by simp)]
    exact h.others

/-- `recursive_unlink` of a file, as `deleteTreeName` has it. -/
theorem deleteFile_shows (hfile : u.vol.ftype id ≠ .dir) (hid : id ≠ link.parent) (fuel : ℕ) :
    ∃ u₁ u', recursiveUnlink fuel link u =
        (if d.nHardlinks file = 1 ∧ (d.file file).unsaved then moveToShadowBase fuel id link u₁ else (ZFS_OK, u')) ∧
      ((d.unlink link.name file).file file).Shows u'.vol place link.parent id (hl.erase link)
        ((d.unlink link.name file).names file) := by
  -- the record of the directory is looked up first
  have ho := OnlyMetadata.lookupMetadata link.parent (u.vol.ftype link.parent) true u.vol
  simp only [recursiveUnlink, recursiveUnlinkPath, recursiveUnlinkStart, ZFS.unlinkContents, ho.lstat, hat, ho.ftype,
    hfile, reduceCtorEq, if_false, ne_eq, not_true_eq_false]
  refine ⟨_, unlink_shows hplace (ho.isMaster.trans hmaster) ((ho.lstat link).trans hat) hlink
    ⟨h.nodup, ?_, h.names, h.others⟩ (Or.inl (by rwa [ho.ftype])) _⟩
  simpa only [Stores, ho.metadata id hid, ho.hardlinks id hid, ho.ftype] using h.record

end LocalDir

end ZFS
