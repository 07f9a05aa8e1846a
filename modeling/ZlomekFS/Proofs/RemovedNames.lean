import ZlomekFS.Proofs.UpdateDir

/-! What becomes of the files when `update_dir` removes a name from the directory and no local data are
modified. A file that the master knows is lost when its last name is deleted; otherwise it is the same
file with fewer names, or it is in the shadow. -/

namespace ZFS
open Tables List

/-! ## One file -/

namespace FileState

variable {f g : FileState} {names : List Name} {place : NamePlace}

structure Same (f g : FileState) : Prop where
  type : g.type = f.type
  masterFh : g.masterFh = f.masterFh
  version : g.version = f.version
  masterVersion : g.masterVersion = f.masterVersion
  modifiedTree : g.modifiedTree = f.modifiedTree

theorem Same.refl (f : FileState) : Same f f := ⟨rfl, rfl, rfl, rfl, rfl⟩

theorem Same.trans {h : FileState} (hfg : Same f g) (hgh : Same g h) : Same f h :=
  ⟨hgh.type.trans hfg.type, hgh.masterFh.trans hfg.masterFh, hgh.version.trans hfg.version,
    hgh.masterVersion.trans hfg.masterVersion, hgh.modifiedTree.trans hfg.modifiedTree⟩

theorem Same.others (f : FileState) (others : List NamePlace) : Same f { f with others := others } :=
  ⟨rfl, rfl, rfl, rfl, rfl⟩

theorem deleteMetadata_of_clean (h : f.modifiedTree = false) :
    f.deleteMetadata names = if names = [] ∧ f.others = [] then deleted else f := by
  have hclear : { f with modifiedTree := false } = f := by
    rw [← h]
  unfold deleteMetadata
  rw [hclear]
  split
  · rename_i heq
    rw [append_eq_nil_iff, map_eq_nil_iff] at heq
    rw [if_pos heq]
  · rename_i name heq
    have hsome : ¬ (names = [] ∧ f.others = []) := by
      rintro ⟨rfl, ho⟩
      simp [ho] at heq
    rw [if_neg hsome, ite_self]
  · rename_i hnil _
    have hsome : ¬ (names = [] ∧ f.others = []) := by
      rintro ⟨rfl, ho⟩
      exact hnil (by simp [ho])
    rw [if_neg hsome]

theorem foldl_unlinkOther_some (bs : List NamePlace) :
    ∀ f : FileState, f.modifiedTree = false → bs.Subperm f.others → (names ≠ [] ∨ bs.length < f.others.length) →
      ∃ os, bs.foldl (unlinkOther names) f = { f with others := os } ∧ os.length + bs.length = f.others.length ∧
        os ⊆ f.others := by
  induction bs with
  | nil =>
    intro f _ _ _
    exact ⟨f.others, rfl, rfl, Subset.refl _⟩
  | cons b bs ih =>
    intro f hclean hsub hleft
    have hmem : b ∈ f.others := hsub.subset mem_cons_self
    have hlen := length_erase_of_mem hmem
    have hpos := length_pos_of_mem hmem
    have hle := hsub.length_le
    simp only [length_cons] at hleft hle
    -- the name is not the last one
    have hstep : unlinkOther names f b = { f with others := f.others.erase b } := by
      have hnot : ¬ (names = [] ∧ f.others.length = 1 ∧ f.unsaved = true) := by
        rintro ⟨hn, h1, -⟩
        rcases hleft with h | h
        · exact h hn
        · omega
      have hnot' : ¬ (names = [] ∧ f.others.erase b = []) := by
        rintro ⟨hn, he⟩
        rw [he, length_nil] at hlen
        rcases hleft with h | h
        · exact h hn
        · omega
      rw [unlinkOther, if_neg hnot]
      exact (deleteMetadata_of_clean (f := { f with others := f.others.erase b }) hclean).trans (if_neg hnot')
    obtain ⟨os, hos, hl, hmore⟩ := ih { f with others := f.others.erase b } hclean
      (by simpa using hsub.erase b) (hleft.imp_right fun h => by
        change bs.length < (f.others.erase b).length
        omega)
    refine ⟨os, ?_, ?_, Subset.trans hmore erase_subset⟩
    · rw [foldl_cons, hstep, hos]
    · change os.length + bs.length = (f.others.erase b).length at hl
      rw [length_cons]
      omega

theorem foldl_unlinkOther_all (bs : List NamePlace) :
    ∀ f : FileState, f.modifiedTree = false → bs.Perm f.others → bs ≠ [] →
      (f.masterFh ≠ none → bs.foldl (unlinkOther []) f = deleted) ∧
        (f.masterFh = none → ∃ name, bs.foldl (unlinkOther []) f = { f with others := [.shadow name] }) := by
  induction bs with
  | nil =>
    intro f _ _ hne
    exact absurd rfl hne
  | cons b bs ih =>
    intro f hclean hperm _
    have hmem : b ∈ f.others := hperm.subset mem_cons_self
    have hlen := hperm.length_eq
    have herase : bs.Perm (f.others.erase b) := by simpa using hperm.erase b
    have hdel : { f with others := f.others.erase b }.deleteMetadata [] = _ :=
      deleteMetadata_of_clean (f := { f with others := f.others.erase b }) hclean
    rw [foldl_cons, unlinkOther]
    cases bs with
    | nil =>
      -- the last name
      have h1 : f.others.length = 1 := hlen.symm
      have hnil : f.others.erase b = [] := herase.symm.eq_nil
      constructor
      · intro hfh
        rw [if_neg (by simp [unsaved, hclean, hfh])]
        exact hdel.trans (if_pos ⟨rfl, hnil⟩)
      · intro hfh
        rw [if_pos ⟨rfl, h1, by simp [unsaved, hfh]⟩]
        exact ⟨b.name, rfl⟩
    | cons c bs =>
      have hnot : f.others.erase b ≠ [] := by
        intro hnil
        rw [hnil] at herase
        exact absurd herase.eq_nil (cons_ne_nil c bs)
      have h1 : f.others.length ≠ 1 := by
        simp only [length_cons] at hlen
        omega
      rw [if_neg (by simp [h1]), hdel, if_neg (by simp [hnot])]
      exact ih { f with others := f.others.erase b } hclean herase (cons_ne_nil c bs)

end FileState

namespace LocalDir

variable {d d' : LocalDir} {name n : Name} {file j : ZfsFh}

/-! ## Counting names -/

theorem names_removeName : (d.removeName name).names j = (d.names j).filter (· ≠ name) := by
  unfold names removeName
  rw [filter_map, filter_filter, filter_filter]
  refine congrArg (map Prod.fst) (filter_congr fun e _ => ?_)
  exact Bool.and_comm _ _

section
variable (h : (d.entries.map Prod.fst).Nodup)

include h

theorem mem_names : n ∈ d.names j ↔ d.lookup n = some j := by
  unfold names lookup
  rw [lookup_eq_some h, mem_map]
  constructor
  · rintro ⟨⟨k, i⟩, he, rfl⟩
    rw [mem_filter, decide_eq_true_eq] at he
    obtain ⟨he, rfl⟩ := he
    exact he
  · intro he
    exact ⟨(n, j), by simpa using he, rfl⟩

theorem nodup_names : (d.names j).Nodup :=
  h.sublist (filter_sublist.map _)

theorem names_removeName_of_ne (hne : d.lookup name ≠ some j) : (d.removeName name).names j = d.names j := by
  rw [names_removeName]
  refine filter_eq_self.mpr fun n hn => ?_
  have : n ≠ name := by
    rintro rfl
    exact hne ((mem_names h).mp hn)
  simpa using this

theorem length_names_removeName (hfile : d.lookup name = some file) :
    ((d.removeName name).names file).length + 1 = (d.names file).length := by
  have hmem := (mem_names h).mpr hfile
  have hnodup : (d.names file).Nodup := nodup_names h
  have hsame : (d.names file).filter (· ≠ name) = (d.names file).erase name := by
    rw [hnodup.erase_eq_filter name]
    refine filter_congr fun n _ => ?_
    by_cases hn : n = name <;> simp [hn]
  have hpos := length_pos_of_mem hmem
  rw [names_removeName, hsame, length_erase_of_mem hmem]
  omega

/-! ## Removing a name -/

end

def Inside (d : LocalDir) (file : ZfsFh) : Prop :=
  d.names file ≠ [] ∨ ∃ place ∈ (d.file file).others, ∃ dir, place.isBelow dir = true

/-- No modified data in the tree, each name once, and directories with one name. -/
structure Clean (d : LocalDir) : Prop where
  names : (d.entries.map Prod.fst).Nodup
  modifiedTree : ∀ file, d.Inside file → (d.file file).modifiedTree = false
  dir : ∀ file, (d.file file).type = .dir → d.nHardlinks file ≤ 1

theorem Clean.modifiedTree_of_lookup (h : d.Clean) (hfile : d.lookup name = some file) :
    (d.file file).modifiedTree = false :=
  h.modifiedTree file (.inl (ne_nil_of_mem ((mem_names h.names).mpr hfile)))

/-- The directory after names were removed: the files in `lost` are deleted, the other ones are the same and
keep a name if the master knows them. -/
structure Shrinks (d d' : LocalDir) (lost : ZfsFh → Prop) : Prop where
  mapping : d'.mapping = d.mapping
  complete : d'.complete = d.complete
  root : d'.fh.localVolumeRoot = d.fh.localVolumeRoot
  masterVersion : d'.fh.masterVersion = d.fh.masterVersion
  names : ∀ j, d.names j = [] → d'.names j = []
  gone : ∀ j, lost j → FileState.deleted.Same (d'.file j) ∧ d'.names j = []
  inside : ∀ j, ¬ lost j → d'.Inside j → d.Inside j
  same : ∀ j, ¬ lost j → (d.file j).Same (d'.file j)
  fewer : ∀ j, ¬ lost j → d'.nHardlinks j ≤ d.nHardlinks j
  named : ∀ j, ¬ lost j → (d.file j).masterFh ≠ none → d.nHardlinks j ≠ 0 → d'.nHardlinks j ≠ 0

section shrinks

variable {lost lost' : ZfsFh → Prop}

theorem Shrinks.congr (h : Shrinks d d' lost) (hiff : ∀ j, lost j ↔ lost' j) : Shrinks d d' lost' := by
  obtain rfl : lost = lost' := funext fun j => propext (hiff j)
  exact h

theorem Shrinks.trans {d2 : LocalDir} (h : Shrinks d d' lost) (h' : Shrinks d' d2 lost') :
    Shrinks d d2 fun j => lost j ∨ lost' j := by
  refine ⟨h'.mapping.trans h.mapping, h'.complete.trans h.complete, h'.root.trans h.root,
    h'.masterVersion.trans h.masterVersion, fun j hj => h'.names j (h.names j hj), ?_, ?_, ?_, ?_, ?_⟩
  · intro j hj
    by_cases hj' : lost' j
    · exact h'.gone j hj'
    · obtain ⟨hdel, hnames⟩ := h.gone j (hj.resolve_right hj')
      exact ⟨hdel.trans (h'.same j hj'), h'.names j hnames⟩
  · intro j hj hin
    rw [not_or] at hj
    exact h.inside j hj.1 (h'.inside j hj.2 hin)
  · intro j hj
    rw [not_or] at hj
    exact (h.same j hj.1).trans (h'.same j hj.2)
  · intro j hj
    rw [not_or] at hj
    exact (h'.fewer j hj.2).trans (h.fewer j hj.1)
  · intro j hj hfh hn
    rw [not_or] at hj
    refine h'.named j hj.2 ?_ (h.named j hj.1 hfh hn)
    rwa [(h.same j hj.1).masterFh]

theorem Shrinks.clean (h : Shrinks d d' lost) (hclean : d.Clean) (hnames : (d'.entries.map Prod.fst).Nodup) :
    d'.Clean := by
  refine ⟨hnames, ?_, ?_⟩
  · intro j hin
    by_cases hj : lost j
    · exact (h.gone j hj).1.modifiedTree
    · rw [(h.same j hj).modifiedTree]
      exact hclean.modifiedTree j (h.inside j hj hin)
  · intro j hdir
    by_cases hj : lost j
    · rw [(h.gone j hj).1.type] at hdir
      cases hdir
    · rw [(h.same j hj).type] at hdir
      exact (h.fewer j hj).trans (hclean.dir j hdir)

end shrinks

theorem names_eq_nil_of_entries (he : d'.entries = (d.removeName name).entries) (h : d.names j = []) :
    d'.names j = [] := by
  have : d'.names j = (d.removeName name).names j := by
    unfold names
    rw [he]
  rw [this, names_removeName, h]
  rfl

theorem names_of_entries_of_ne (h : (d.entries.map Prod.fst).Nodup) (he : d'.entries = (d.removeName name).entries)
    (hfile : d.lookup name = some file) (hj : j ≠ file) : d'.names j = d.names j := by
  have hne : d.lookup name ≠ some j := by
    rw [hfile]
    exact fun heq => hj (Option.some_inj.mp heq).symm
  rw [← names_removeName_of_ne h hne]
  unfold names
  rw [he]

theorem shrinks_setFile (h : d.Clean) (hfile : d.lookup name = some file) {f : FileState} {lost : Prop}
    (hgone : lost → FileState.deleted.Same f ∧ (d.removeName name).names file = [])
    (hkept : ¬ lost → (d.file file).Same f ∧ ((d.removeName name).names file).length + f.others.length ≤ d.nHardlinks file ∧
      ((d.removeName name).names file).length + f.others.length ≠ 0) :
    Shrinks d ((d.removeName name).setFile file f) fun j => j = file ∧ lost := by
  have hself : ((d.removeName name).setFile file f).file file = f := Function.update_self ..
  have hother (j : ZfsFh) (hj : j ≠ file) : ((d.removeName name).setFile file f).file j = d.file j ∧
      ((d.removeName name).setFile file f).names j = d.names j :=
    ⟨Function.update_of_ne hj _ _, names_of_entries_of_ne h.names rfl hfile hj⟩
  refine ⟨rfl, rfl, rfl, rfl, fun j => names_eq_nil_of_entries rfl, ?_, ?_, ?_, ?_, ?_⟩
  · rintro j ⟨rfl, hlost⟩
    rw [hself]
    exact hgone hlost
  · intro j _ hin
    by_cases heq : j = file
    · exact heq ▸ .inl (ne_nil_of_mem ((mem_names h.names).mpr hfile))
    · rwa [Inside, (hother j heq).1, (hother j heq).2] at hin
  · intro j hj
    by_cases heq : j = file
    · subst heq
      rw [hself]
      exact (hkept fun hlost => hj ⟨rfl, hlost⟩).1
    · rw [(hother j heq).1]
      exact .refl _
  · intro j hj
    by_cases heq : j = file
    · subst heq
      rw [nHardlinks, hself]
      exact (hkept fun hlost => hj ⟨rfl, hlost⟩).2.1
    · rw [nHardlinks, nHardlinks, (hother j heq).1, (hother j heq).2]
  · intro j hj _ hn
    by_cases heq : j = file
    · subst heq
      rw [nHardlinks, hself]
      exact (hkept fun hlost => hj ⟨rfl, hlost⟩).2.2
    · rwa [nHardlinks, (hother j heq).1, (hother j heq).2]

theorem shrinks_unlink (h : d.Clean) (hfile : d.lookup name = some file) :
    Shrinks d (d.unlink name file) fun j => j = file ∧ d.nHardlinks file = 1 := by
  have hlen := length_names_removeName h.names hfile
  have hlast : ((d.removeName name).names file = [] ∧ (d.file file).others = []) ↔ d.nHardlinks file = 1 := by
    rw [← length_eq_zero_iff, ← length_eq_zero_iff, nHardlinks]
    omega
  have hstate : d.unlink name file = (d.removeName name).setFile file
      (if (d.removeName name).names file = [] ∧ (d.file file).others = [] then .deleted else d.file file) :=
    congrArg ((d.removeName name).setFile file) (FileState.deleteMetadata_of_clean (h.modifiedTree_of_lookup hfile))
  rw [hstate]
  refine shrinks_setFile h hfile (fun h1 => ?_) fun h1 => ?_
  · rw [if_pos (hlast.mpr h1)]
    exact ⟨.refl _, (hlast.mpr h1).1⟩
  · rw [if_neg (mt hlast.mp h1)]
    unfold nHardlinks at h1 ⊢
    exact ⟨.refl _, by omega, by omega⟩

theorem shrinks_moveToShadow (h : d.Clean) (hfile : d.lookup name = some file) :
    Shrinks d (d.moveToShadow name file) fun _ => False := by
  have hlen := length_names_removeName h.names hfile
  refine (shrinks_setFile h hfile False.elim fun _ => ⟨.others .., ?_, ?_⟩).congr fun j => iff_of_eq (and_false _)
  · rw [nHardlinks, length_cons]
    omega
  · rw [length_cons]
    omega

theorem shrinks_unlinkItself (h : d.Clean) (hfile : d.lookup name = some file) :
    Shrinks d (d.unlinkItself name file) fun j =>
      j = file ∧ d.nHardlinks file = 1 ∧ (d.file file).masterFh ≠ none := by
  have hunsaved : (d.file file).unsaved = true ↔ (d.file file).masterFh = none := by
    simp [FileState.unsaved, h.modifiedTree_of_lookup hfile]
  unfold unlinkItself
  split_ifs with hlast
  · refine (shrinks_moveToShadow h hfile).congr fun j => ?_
    simp [hunsaved.mp hlast.2]
  · refine (shrinks_unlink h hfile).congr fun j => ?_
    rw [hunsaved] at hlast
    tauto

/-! ## Deleting a tree -/

/-- All names of the file are below the directory `dir`. -/
def AllBelow (d : LocalDir) (dir j : ZfsFh) : Prop :=
  d.names j = [] ∧ (d.file j).others ≠ [] ∧ ∀ place ∈ (d.file j).others, place.isBelow dir = true

theorem AllBelow.inside {dir : ZfsFh} (h : d.AllBelow dir j) : d.Inside j := by
  obtain ⟨place, hmem⟩ := exists_mem_of_ne_nil _ h.2.1
  exact .inr ⟨place, hmem, dir, h.2.2 place hmem⟩

theorem file_unlinkContents_all {dir : ZfsFh} (hclean : d.Clean) (h : d.AllBelow dir j) :
    ((d.file j).masterFh ≠ none → (d.unlinkContents dir).file j = .deleted) ∧
      ((d.file j).masterFh = none →
        ∃ name, (d.unlinkContents dir).file j = { d.file j with others := [.shadow name] }) := by
  have hin := hclean.modifiedTree j h.inside
  obtain ⟨hnames, hothers, hall⟩ := h
  have hfilter : (d.file j).others.filter (·.isBelow dir) = (d.file j).others := filter_eq_self.mpr hall
  simp only [unlinkContents, hnames, hfilter]
  exact FileState.foldl_unlinkOther_all _ (d.file j) hin (Perm.refl _) hothers

theorem file_unlinkContents_some {dir : ZfsFh} (hclean : d.Clean) (h : ¬ d.AllBelow dir j) :
    ∃ os, (d.unlinkContents dir).file j = { d.file j with others := os } ∧
      os.length ≤ (d.file j).others.length ∧ os ⊆ (d.file j).others ∧
      (d.nHardlinks j ≠ 0 → d.names j ≠ [] ∨ os ≠ []) := by
  by_cases hbelow : (d.file j).others.filter (·.isBelow dir) = []
  · refine ⟨(d.file j).others, ?_, le_rfl, Subset.refl _, ?_⟩
    · simp only [unlinkContents, hbelow, foldl_nil]
    · intro hn
      by_contra hcon
      rw [not_or, not_not, not_not] at hcon
      exact hn (by simp [nHardlinks, hcon.1, hcon.2])
  obtain ⟨place, hmem⟩ := exists_mem_of_ne_nil _ hbelow
  rw [mem_filter] at hmem
  have hin := hclean.modifiedTree j (.inr ⟨place, hmem.1, dir, hmem.2⟩)
  have hsub := (filter_sublist (p := (·.isBelow dir)) (l := (d.file j).others)).subperm
  -- a name in the directory or elsewhere stays
  have hleft : d.names j ≠ [] ∨ ((d.file j).others.filter (·.isBelow dir)).length < (d.file j).others.length := by
    by_contra hcon
    rw [not_or, not_not] at hcon
    refine h ⟨hcon.1, ne_nil_of_mem hmem.1, ?_⟩
    exact length_filter_eq_length_iff.mp (le_antisymm (length_filter_le _ _) (not_lt.mp hcon.2))
  obtain ⟨os, hos, hlen, hmore⟩ := FileState.foldl_unlinkOther_some _ (d.file j) hin hsub hleft
  refine ⟨os, hos, by omega, hmore, fun _ => hleft.imp_right fun hlt => ?_⟩
  rintro rfl
  simp only [length_nil] at hlen
  omega

theorem shrinks_unlinkContents (h : d.Clean) (dir : ZfsFh) :
    Shrinks d (d.unlinkContents dir) fun j => (d.file j).masterFh ≠ none ∧ d.AllBelow dir j := by
  refine ⟨rfl, rfl, rfl, rfl, fun _ hj => hj, ?_, ?_, ?_, ?_, ?_⟩
  · intro j hj
    rw [(file_unlinkContents_all h hj.2).1 hj.1]
    exact ⟨.refl _, hj.2.1⟩
  · intro j hj hin
    by_cases hall : d.AllBelow dir j
    · exact hall.inside
    · obtain ⟨os, hfile, -, hmore, -⟩ := file_unlinkContents_some h hall
      refine hin.imp_right fun ⟨place, hmem, htop⟩ => ⟨place, hmore ?_, htop⟩
      rwa [hfile] at hmem
  · intro j hj
    by_cases hall : d.AllBelow dir j
    · have hfh : (d.file j).masterFh = none := by
        by_contra hfh
        exact hj ⟨hfh, hall⟩
      obtain ⟨name, hfile⟩ := (file_unlinkContents_all h hall).2 hfh
      rw [hfile]
      exact .others ..
    · obtain ⟨os, hfile, -⟩ := file_unlinkContents_some h hall
      rw [hfile]
      exact .others ..
  · intro j hj
    change (d.names j).length + ((d.unlinkContents dir).file j).others.length ≤ _
    by_cases hall : d.AllBelow dir j
    · have hfh : (d.file j).masterFh = none := by
        by_contra hfh
        exact hj ⟨hfh, hall⟩
      obtain ⟨name, hfile⟩ := (file_unlinkContents_all h hall).2 hfh
      have hpos := length_pos_iff.mpr hall.2.1
      rw [hfile, nHardlinks]
      simp only [length_singleton]
      omega
    · obtain ⟨os, hfile, hlen, -⟩ := file_unlinkContents_some h hall
      rw [hfile, nHardlinks]
      exact Nat.add_le_add_left hlen _
  · intro j hj hfh hn
    obtain ⟨os, hfile, -, -, hsome⟩ := file_unlinkContents_some h fun hall => hj ⟨hfh, hall⟩
    change (d.names j).length + ((d.unlinkContents dir).file j).others.length ≠ 0
    rw [hfile]
    rcases hsome hn with hne | hne
    · have := length_pos_iff.mpr hne
      omega
    · have := length_pos_iff.mpr hne
      change _ + os.length ≠ 0
      omega

/-- The files that the master knows and that `delete_tree_name` deletes: the file itself if the name is the
last one, and with a directory what has all its names below it. -/
def Loses (d : LocalDir) (file j : ZfsFh) : Prop :=
  (d.file j).masterFh ≠ none ∧
    (j = file ∧ d.nHardlinks file = 1 ∨
      (d.file file).type = .dir ∧ (d.file file).masterFh ≠ none ∧ d.AllBelow file j)

theorem shrinks_deleteTreeName (h : d.Clean) (hfile : d.lookup name = some file) :
    Shrinks d (d.deleteTreeName name) (d.Loses file) := by
  simp only [deleteTreeName, hfile]
  split_ifs with hdir hfh
  · refine (shrinks_moveToShadow h hfile).congr fun j => ⟨False.elim, ?_⟩
    rintro ⟨hj, ⟨rfl, -⟩ | ⟨-, hne, -⟩⟩
    · exact hj hfh
    · exact hne hfh
  · have hcontents := shrinks_unlinkContents h file
    have hself : Shrinks _ ((d.unlinkContents file).unlinkItself name file) _ :=
      shrinks_unlinkItself (hcontents.clean h h.names) hfile
    -- the only name of the directory is the one that goes
    have hothers : (d.file file).others = [] := by
      have hmem := length_pos_of_mem ((mem_names h.names).mpr hfile)
      have hle := h.dir file hdir
      rw [nHardlinks] at hle
      exact length_eq_zero_iff.mp (by omega)
    have hsame : (d.unlinkContents file).file file = d.file file := by
      simp [unlinkContents, hothers]
    have hlinks : (d.unlinkContents file).nHardlinks file = d.nHardlinks file := by
      rw [nHardlinks, nHardlinks, hsame]
      rfl
    refine (hcontents.trans hself).congr fun j => ?_
    rw [hlinks, hsame]
    constructor
    · rintro (⟨hj, hall⟩ | ⟨rfl, h1, hj⟩)
      · exact ⟨hj, .inr ⟨hdir, hfh, hall⟩⟩
      · exact ⟨hj, .inl ⟨rfl, h1⟩⟩
    · rintro ⟨hj, ⟨rfl, h1⟩ | ⟨-, -, hall⟩⟩
      · exact .inr ⟨rfl, h1, hj⟩
      · exact .inl ⟨hj, hall⟩
  · refine (shrinks_unlinkItself h hfile).congr fun j => ?_
    constructor
    · rintro ⟨rfl, h1, hj⟩
      exact ⟨hj, .inl ⟨rfl, h1⟩⟩
    · rintro ⟨hj, ⟨rfl, h1⟩ | ⟨hd, -⟩⟩
      · exact ⟨rfl, h1, hj⟩
      · exact absurd hd hdir

/-- A file that the master still has is lost if it is an empty directory. -/
theorem shrinks_localReintegrateDel (h : d.Clean) (hfile : d.lookup name = some file) :
    Shrinks d (d.localReintegrateDel name file false) fun j =>
      j = file ∧ d.nHardlinks file = 1 ∧ (d.file file).type = .dir ∧ (d.file file).empty = true := by
  have hmem := length_pos_of_mem ((mem_names h.names).mpr hfile)
  have hpos : 1 ≤ d.nHardlinks file := by
    rw [nHardlinks]
    omega
  simp only [localReintegrateDel, Bool.false_eq_true, false_or]
  split_ifs with hlinks hempty
  · refine (shrinks_deleteTreeName h hfile).congr fun j => ?_
    constructor
    · rintro ⟨-, ⟨-, heq⟩ | ⟨hdir, -⟩⟩
      · omega
      · have := h.dir file hdir
        omega
    · rintro ⟨-, heq, -⟩
      omega
  · have h1 : d.nHardlinks file = 1 := by omega
    have hunlink := shrinks_unlink h hfile
    have hjournal : Shrinks d ((d.unlink name file).journalDel name file (d.file file)) _ :=
      ⟨hunlink.mapping, hunlink.complete, hunlink.root, hunlink.masterVersion, hunlink.names, hunlink.gone,
        hunlink.inside, hunlink.same, hunlink.fewer, hunlink.named⟩
    refine hjournal.congr fun j => ?_
    simp [h1, hempty.1, hempty.2]
  · refine (shrinks_moveToShadow h hfile).congr fun j => ⟨False.elim, ?_⟩
    rintro ⟨-, -, hd, he⟩
    exact hempty ⟨hd, he⟩

end LocalDir

end ZFS
