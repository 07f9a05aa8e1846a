import ZlomekFS.Lib.Tables
import ZlomekFS.Spec.UpdateDir

/-! What the functions that `update_dir` calls do to the names in the directory. -/

namespace ZFS
open Tables

namespace LocalDir

variable {d : LocalDir} {name n : Name} {file : ZfsFh}

theorem lookup_removeName : (d.removeName name).lookup n = if n = name then none else d.lookup n :=
  lookup_filter_ne d.entries

theorem lookup_addName (h : d.lookup name = none) :
    (d.addName name file).lookup n = if n = name then some file else d.lookup n :=
  lookup_concat h

theorem deleteTreeName_of_free (h : d.lookup name = none) : d.deleteTreeName name = d := by
  simp only [deleteTreeName, h]

theorem removeName_of_free (h : d.lookup name = none) : (d.removeName name).entries = d.entries := by
  rw [lookup, lookup_eq_none] at h
  refine List.filter_eq_self.mpr fun e he => ?_
  have hne : e.1 ≠ name := fun heq => h (heq ▸ List.mem_map.mpr ⟨e, he, rfl⟩)
  simpa using hne

theorem entries_unlinkItself : (d.unlinkItself name file).entries = (d.removeName name).entries := by
  unfold unlinkItself
  split <;> rfl

theorem entries_deleteTreeName : (d.deleteTreeName name).entries = (d.removeName name).entries := by
  cases h : d.lookup name with
  | none => rw [deleteTreeName_of_free h, removeName_of_free h]
  | some file =>
    simp only [deleteTreeName, h]
    split_ifs
    · rfl
    · exact entries_unlinkItself
    · exact entries_unlinkItself

theorem entries_localReintegrateDel {destroy : Bool} :
    (d.localReintegrateDel name file destroy).entries = (d.removeName name).entries := by
  unfold localReintegrateDel
  split_ifs
  · exact entries_deleteTreeName
  · rfl
  · rfl

theorem fh_unlinkItself : (d.unlinkItself name file).fh = d.fh := by
  unfold unlinkItself
  split <;> rfl

theorem fh_deleteTreeName : (d.deleteTreeName name).fh = d.fh := by
  unfold deleteTreeName
  split
  · rfl
  · split_ifs
    · rfl
    · exact fh_unlinkItself
    · exact fh_unlinkItself

theorem root_localReintegrateDel {destroy : Bool} :
    (d.localReintegrateDel name file destroy).fh.localVolumeRoot = d.fh.localVolumeRoot := by
  unfold localReintegrateDel
  split_ifs
  · rw [fh_deleteTreeName]
  · rfl
  · rfl

theorem lookup_of_entries {d' : LocalDir} (h : d'.entries = (d.removeName name).entries) :
    d'.lookup n = if n = name then none else d.lookup n := by
  rw [lookup, h]
  exact lookup_removeName

theorem localReintegrateAdd_of_free (h : d.lookup name = none) :
    d.localReintegrateAdd name file =
      if d.nHardlinks file = 0 then (ENOENT, d)
      else if (d.file file).others.any (·.isShadow) then
        (ZFS_OK, (d.addName name file).setFile file
          { d.file file with others := (d.file file).others.filter (!·.isShadow) })
      else if (d.file file).type = .dir then
        (ZFS_OK, ({ d with entries := d.entries.filter (·.2 ≠ file) }.addName name file).setFile file
          { d.file file with others := [] })
      else (ZFS_OK, d.addName name file) := by
  simp only [localReintegrateAdd, deleteTreeName_of_free h]
  split_ifs <;> rfl

/-- Whether `local_reintegrate_add` renames a directory that has another name. -/
def renames (d : LocalDir) (file : ZfsFh) : Bool :=
  d.nHardlinks file ≠ 0 && !(d.file file).others.any (·.isShadow) && (d.file file).type = .dir

/-- The names of the other files stay; a directory that is renamed loses the name it had. -/
theorem lookup_localReintegrateAdd (hnodup : (d.entries.map Prod.fst).Nodup) (h : d.lookup name = none)
    (hn : n ≠ name) :
    (d.localReintegrateAdd name file).2.lookup n =
      if d.renames file ∧ d.lookup n = some file then none else d.lookup n := by
  rw [localReintegrateAdd_of_free h]
  by_cases hlinks : d.nHardlinks file = 0
  · simp [renames, hlinks]
  by_cases hshadow : (d.file file).others.any (·.isShadow) = true
  · rw [if_neg hlinks, if_pos hshadow]
    have : (d.addName name file).lookup n = d.lookup n := by rw [lookup_addName h, if_neg hn]
    simp only [renames, hshadow, Bool.not_true, Bool.and_false, Bool.false_and, Bool.false_eq_true, false_and, if_false]
    exact this
  by_cases hdir : (d.file file).type = .dir
  · rw [if_neg hlinks, if_neg hshadow, if_pos hdir]
    have hfilter (k : Name) : (d.entries.filter (·.2 ≠ file)).lookup k = (d.lookup k).filter (· ≠ file) :=
      lookup_filter_value hnodup fun i => decide (i ≠ file)
    have hfree : (d.entries.filter (·.2 ≠ file)).lookup name = none := by rw [hfilter, h]; rfl
    have hlookup : ((d.entries.filter (·.2 ≠ file)) ++ [(name, file)]).lookup n = _ := lookup_concat hfree
    rw [if_neg hn, hfilter] at hlookup
    refine hlookup.trans ?_
    cases hold : d.lookup n with
    | none => simp
    | some i =>
      by_cases hi : i = file
      · simp [hi, renames, hlinks, hshadow, hdir]
      · simp [hi]
  · rw [if_neg hlinks, if_neg hshadow, if_neg hdir]
    have : (d.addName name file).lookup n = d.lookup n := by rw [lookup_addName h, if_neg hn]
    simp [renames, hdir, this]

section
variable (h : (d.entries.map Prod.fst).Nodup)

include h

theorem nodup_removeName : ((d.removeName name).entries.map Prod.fst).Nodup :=
  h.sublist (List.filter_sublist.map _)

theorem nodup_addName (hfree : d.lookup name = none) :
    ((d.addName name file).entries.map Prod.fst).Nodup := by
  rw [lookup, lookup_eq_none] at hfree
  simp only [addName, List.map_append, List.map_cons, List.map_nil]
  exact List.Nodup.append h (List.nodup_singleton _) (by simpa using hfree)

theorem nodup_localReintegrateAdd (hfree : d.lookup name = none) :
    ((d.localReintegrateAdd name file).2.entries.map Prod.fst).Nodup := by
  rw [localReintegrateAdd_of_free hfree]
  split_ifs
  · exact h
  · exact nodup_addName h hfree
  · refine nodup_addName (h.sublist (List.filter_sublist.map _)) ?_
    exact (lookup_filter_value h fun i => decide (i ≠ file)).trans (by rw [← lookup, hfree]; rfl)
  · exact nodup_addName h hfree

end

end LocalDir

end ZFS
