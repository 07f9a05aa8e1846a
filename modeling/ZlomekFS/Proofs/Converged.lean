import ZlomekFS.Proofs.PendingEntries
import ZlomekFS.Proofs.RemovedNames

/-! `update_dir` and the remote directory when nothing is modified and the master answers everything. The
first loop can lose a file that the second loop would give another name: it deletes the last name of a
file whose name is used for another file, the tree that has the file, or an empty directory, and for the
last one it writes the journal, so that the new version is not stored. -/

namespace ZFS
open Loops Tables LocalDir

abbrev RemoteDir := List (Name × ZfsFh × Fattr)

def RemoteDir.Linked (remote : RemoteDir) (fh : ZfsFh) : Prop :=
  ∃ n n' a a', n ≠ n' ∧ remote.lookup n = some (fh, a) ∧ remote.lookup n' = some (fh, a')

/-- `.shadow` of the volume root, which stays local. -/
def LocalDir.Hidden (d : LocalDir) (n : Name) : Prop := d.fh.localVolumeRoot = true ∧ n = SHADOW_NAME

/-- Nothing is modified, and the slots of `fh_mapping` are those of the files with master file handles. -/
structure LocalDir.WellFormed (d : LocalDir) : Prop where
  clean : d.Clean
  mapped : ∀ j fh, (d.file j).masterFh = some fh → d.mapping fh = some j
  named : ∀ j, (d.file j).masterFh ≠ none → d.nHardlinks j ≠ 0
  unmodified : ∀ n j, ¬ d.Hidden n → d.lookup n = some j → (d.file j).version = (d.file j).masterVersion
  hidden : ∀ n j, d.Hidden n → d.lookup n = some j → (d.file j).masterFh = none
  journal : d.fh.journal = []

/-- The master has the directory `remote` during the whole update, and every call succeeds. -/
structure UpdateDirEnv.Answers (env : UpdateDirEnv) (remote : RemoteDir) (d : LocalDir) : Prop where
  reads : env.Reads d
  remoteReaddir : env.remoteReaddir = .ok (remote.map Prod.fst)
  remoteLookup : ∀ n a, remote.lookup n = some a → env.remoteLookup n = .ok a ∧ env.remoteLookupAgain n = .ok a
  synchronizeFile : ∀ n, env.synchronizeFile n = ZFS_OK
  linked : ∀ fh, remote.Linked fh → (∀ n a, remote.lookup n = some (fh, a) → a.type ≠ .dir) ∧
    ∀ j, (d.file j).masterFh = some fh → (d.file j).type ≠ .dir
  newFile : ∀ n ∈ remote.map Prod.fst,
    (∀ n', d.lookup n' ≠ some (env.newFile n)) ∧ ∀ fh, d.mapping fh ≠ some (env.newFile n)
  newFile_inj : ∀ n ∈ remote.map Prod.fst, ∀ n' ∈ remote.map Prod.fst, env.newFile n = env.newFile n' → n = n'

structure LocalDir.CopyOf (remote : RemoteDir) (d : LocalDir) : Prop where
  names : ∀ n, ¬ d.Hidden n → (d.lookup n ≠ none ↔ remote.lookup n ≠ none)
  masterFh : ∀ n j a, d.lookup n = some j → remote.lookup n = some a → (d.file j).masterFh = some a.1

def LocalDir.Moved (remote : RemoteDir) (d : LocalDir) (n : Name) (j : ZfsFh) : Prop :=
  ∃ a, remote.lookup n = some a ∧ d.fhMapping a.1 = some j ∧ d.lookup n ≠ some j

/-- The directory `d'` after the update of `d`. -/
structure LocalDir.Converged (remote : RemoteDir) (version : ℕ) (d d' : LocalDir) : Prop where
  copy : d'.CopyOf remote
  kept : ∀ n j, d.Moved remote n j → d'.lookup n = some j
  localVersion : d'.fh.localVersion = version
  masterVersion : d'.fh.masterVersion = version
  complete : d'.complete = true

/-! ## What a removal loses -/

def releases (env : UpdateDirEnv) (name : Name) (u : Updating) (file : ZfsFh) : Bool :=
  name ∉ u.remoteEntries &&
    match (u.dir.file file).masterFh with
    | some fh => env.remoteFileInfo fh = ZFS_OK
    | none => false

/-- The file is deleted with the name, although the master still has it. -/
def LocalDir.DeletesEmpty (d : LocalDir) (file : ZfsFh) : Prop :=
  d.nHardlinks file = 1 ∧ (d.file file).type = .dir ∧ (d.file file).empty = true

/-- The files that are lost when the entry of `file` is removed. -/
def LosesFile (env : UpdateDirEnv) (name : Name) (u : Updating) (file j : ZfsFh) : Prop :=
  if releases env name u file then j = file ∧ u.dir.DeletesEmpty file else u.dir.Loses file j

def JournalsDel (env : UpdateDirEnv) (name : Name) (u : Updating) (file : ZfsFh) : Prop :=
  releases env name u file = true ∧ u.dir.DeletesEmpty file ∧
    ¬ ((u.dir.fh.localVolumeRoot = true ∧ specialName name = true) ∨ u.dir.shadowTree = true)

/-- The rounds that neither write the journal nor lose a file that gets another name. -/
def SafeRemoval (remote : RemoteDir) (d : LocalDir) (env : UpdateDirEnv) (name : Name) (u : Updating) : Prop :=
  removesEntry env name u = true → ∀ file ∈ u.dir.lookup name,
    ¬ JournalsDel env name u file ∧ ∀ n j, d.Moved remote n j → ¬ LosesFile env name u file j

def LocalDir.OnlyDel (d : LocalDir) : Prop := ∀ e ∈ d.fh.journal, e.oper = .del

section removal

variable {env : UpdateDirEnv} {remote : RemoteDir} {d d' : LocalDir} {name : Name} {file : ZfsFh} {u : Updating}

theorem journal_localReintegrateDel (hdel : d.OnlyDel) (hpos : d.nHardlinks file ≠ 0) :
    (d.localReintegrateDel name file false).OnlyDel ∧
    ((d.localReintegrateDel name file false).fh.journal = [] ↔ d.fh.journal = [] ∧ ¬ (d.DeletesEmpty file ∧
      ¬ ((d.fh.localVolumeRoot = true ∧ specialName name = true) ∨ d.shadowTree = true))) := by
  unfold DeletesEmpty OnlyDel
  simp only [localReintegrateDel, Bool.false_eq_true, false_or]
  split_ifs with hlinks hempty
  · rw [fh_deleteTreeName]
    refine ⟨hdel, (and_iff_left fun h => ?_).symm⟩
    omega
  · have h1 : d.nHardlinks file = 1 := by omega
    simp only [h1, hempty, true_and, not_not]
    by_cases hspecial : (d.fh.localVolumeRoot = true ∧ specialName name = true) ∨ d.shadowTree = true
    · have hsame : ((d.unlink name file).journalDel name file (d.file file)).fh.journal = d.fh.journal := if_pos hspecial
      rw [hsame]
      exact ⟨hdel, (and_iff_left hspecial).symm⟩
    · -- nothing in the journal cancels the deletion
      have hinsert : ∃ e : JournalEntry, e.oper = .del ∧
          ((d.unlink name file).journalDel name file (d.file file)).fh.journal = eraseKey d.fh.journal e.key ++ [e] := by
        refine ⟨_, ?_, (if_neg hspecial).trans (if_neg ?_)⟩
        · rfl
        · rintro ⟨-, a, ha, hkey⟩
          have := hdel a ha
          rw [JournalEntry.key, Prod.mk.injEq, this] at hkey
          cases hkey.1
      obtain ⟨e, he, hjournal⟩ := hinsert
      rw [hjournal]
      refine ⟨?_, by simp [hspecial]⟩
      intro a ha
      rcases List.mem_append.mp ha with ha | ha
      · exact hdel a (List.mem_of_mem_filter ha)
      · rw [List.mem_singleton.mp ha, he]
  · refine ⟨hdel, (and_iff_left fun h => hempty h.1.2).symm⟩

end removal

/-! ## The first loop -/

/-- The variables of the first loop when `rest` are the local entries that are left. -/
structure LocalInv (remote : RemoteDir) (d : LocalDir) (rest : List Name) (u : Updating) : Prop where
  loop : LocalRest rest u
  conflicts : u.conflicts = []
  clean : u.dir.Clean
  onlyDel : u.dir.OnlyDel
  mapping : u.dir.mapping = d.mapping
  complete : u.dir.complete = d.complete
  root : u.dir.fh.localVolumeRoot = d.fh.localVolumeRoot
  masterVersion : u.dir.fh.masterVersion = d.fh.masterVersion
  lookup : ∀ n j, u.dir.lookup n = some j → d.lookup n = some j
  files : ∀ j, (d.file j).Same (u.dir.file j) ∨ (FileState.deleted.Same (u.dir.file j) ∧ u.dir.names j = [])
  named : ∀ j, (u.dir.file j).masterFh ≠ none → u.dir.nHardlinks j ≠ 0
  remotes : ∀ n ∈ u.remoteEntries, remote.lookup n ≠ none
  synced : ∀ n a, remote.lookup n = some a → n ∉ u.remoteEntries →
    n ∉ rest ∧ ∃ j, u.dir.lookup n = some j ∧ (u.dir.file j).masterFh = some a.1
  visited : ∀ n j, u.dir.lookup n = some j → n ∉ rest → ¬ d.Hidden n → remote.lookup n ≠ none ∧ n ∉ u.remoteEntries

section localInv

variable {env : UpdateDirEnv} {remote : RemoteDir} {d : LocalDir} {name n : Name} {file j : ZfsFh} {rest : List Name}
  {u u' : Updating}

theorem LocalInv.same_of_lookup (h : LocalInv remote d rest u) (hj : u.dir.lookup n = some j) :
    (d.file j).Same (u.dir.file j) := by
  refine (h.files j).resolve_right fun hdel => ?_
  have hmem := (mem_names h.clean.names).mpr hj
  rw [hdel.2] at hmem
  cases hmem

inductive LocalRound (remote : RemoteDir) (env : UpdateDirEnv) (name : Name) (u : Updating) : Updating → Prop
  | skip (hremoves : removesEntry env name u = false) (hfree : ¬ u.dir.Hidden name → u.dir.lookup name = none) :
      LocalRound remote env name u u
  | keep (file : ZfsFh) (a : ZfsFh × Fattr) (hremoves : removesEntry env name u = false)
      (hfile : u.dir.lookup name = some file) (hremote : remote.lookup name = some a)
      (hfh : (u.dir.file file).masterFh = some a.1) : LocalRound remote env name u (u.clearRemote name)
  | remove (file : ZfsFh) (d' : LocalDir) (hremoves : removesEntry env name u = true)
      (hfile : u.dir.lookup name = some file) (hentries : d'.entries = (u.dir.removeName name).entries)
      (hshrinks : u.dir.Shrinks d' (LosesFile env name u file)) (hdel : d'.OnlyDel)
      (hjournal : d'.fh.journal = [] ↔ u.dir.fh.journal = [] ∧ ¬ JournalsDel env name u file) :
      LocalRound remote env name u { u with dir := d' }

theorem LocalInv.round (hd : d.WellFormed) (henv : env.Answers remote d) (h : LocalInv remote d rest u) (name : Name) :
    (updateLocalEntry env name u).1 = ZFS_OK ∧ LocalRound remote env name u (updateLocalEntry env name u).2 := by
  by_cases hhidden : u.dir.fh.localVolumeRoot = true ∧ name = SHADOW_NAME
  · have hremoves : removesEntry env name u = false := if_pos hhidden
    rw [updateLocalEntry, if_pos hhidden]
    exact ⟨rfl, .skip hremoves fun hn => absurd hhidden hn⟩
  cases hfile : u.dir.lookup name with
  | none =>
    have hremoves : removesEntry env name u = false := by simp [removesEntry, hhidden, hfile]
    simp only [updateLocalEntry, if_neg hhidden, hfile]
    exact ⟨trivial, .skip hremoves fun _ => hfile⟩
  | some file =>
    have hsame := h.same_of_lookup hfile
    have hver : (u.dir.file file).version = (u.dir.file file).masterVersion := by
      rw [hsame.version, hsame.masterVersion]
      refine hd.unmodified name file (fun hn => hhidden ?_) (h.lookup name file hfile)
      rwa [Hidden, ← h.root] at hn
    -- `delete_tree_name` when the file is not released
    have hdelete (hremoves : removesEntry env name u = true) (hrel : releases env name u file = false) :
        LocalRound remote env name u { u with dir := u.dir.deleteTreeName name } := by
      refine .remove file _ hremoves hfile entries_deleteTreeName ?_ ?_ ?_
      · refine (shrinks_deleteTreeName h.clean hfile).congr fun j => ?_
        simp [LosesFile, hrel]
      · rw [OnlyDel, fh_deleteTreeName]
        exact h.onlyDel
      · rw [fh_deleteTreeName]
        simp [JournalsDel, hrel]
    by_cases hremote : name ∈ u.remoteEntries
    · have hrel : releases env name u file = false := by simp [releases, hremote]
      obtain ⟨a, ha⟩ := Option.ne_none_iff_exists'.mp (h.remotes name hremote)
      have hlookup := (henv.remoteLookup name a ha).1
      simp only [updateLocalEntry, if_neg hhidden, hfile, if_pos hremote, hlookup, henv.synchronizeFile name]
      by_cases hfh : (u.dir.file file).masterFh = some a.1
      · cases hcontents : env.filesAreTheSame name with
        | true =>
          have hremoves : removesEntry env name u = false := by
            simp [removesEntry, hhidden, hfile, hremote, hlookup, hfh, hcontents]
          simp only [hfh, if_true, ne_eq, not_true_eq_false, if_false]
          exact ⟨trivial, .keep file a hremoves hfile ha hfh⟩
        | false =>
          have hremoves : removesEntry env name u = true := by
            simp [removesEntry, hhidden, hfile, hremote, hlookup, hfh, hcontents]
          simp only [hfh, if_true, Bool.false_eq_true, if_false]
          exact ⟨trivial, hdelete hremoves hrel⟩
      · have hremoves : removesEntry env name u = true := by
          simp [removesEntry, hhidden, hfile, hremote, hlookup, hfh, hver]
        simp only [hfh, hver, if_true, if_false]
        exact ⟨trivial, hdelete hremoves hrel⟩
    · have hremoves : removesEntry env name u = true := by
        simp [removesEntry, hhidden, hfile, hremote, hver]
      simp only [updateLocalEntry, if_neg hhidden, hfile, if_neg hremote]
      cases hfh : (u.dir.file file).masterFh with
      | none =>
        have hrel : releases env name u file = false := by simp [releases, hfh]
        exact ⟨rfl, hdelete hremoves hrel⟩
      | some fh =>
        simp only [hver, if_true]
        by_cases hinfo : env.remoteFileInfo fh = ZFS_OK
        · have hrel : releases env name u file = true := by simp [releases, hremote, hfh, hinfo]
          have hpos := h.named file (by simp [hfh])
          have hjournal : (u.dir.localReintegrateDel name file false).OnlyDel ∧ _ :=
            journal_localReintegrateDel h.onlyDel hpos
          simp only [hinfo, ne_eq, not_true_eq_false, decide_false]
          refine ⟨trivial, .remove file _ hremoves hfile entries_localReintegrateDel ?_ hjournal.1 ?_⟩
          · refine (shrinks_localReintegrateDel h.clean hfile).congr fun j => ?_
            simp [LosesFile, hrel, DeletesEmpty]
          · rw [hjournal.2]
            simp [JournalsDel, hrel]
        · have hrel : releases env name u file = false := by simp [releases, hfh, hinfo]
          have hdestroy : u.dir.localReintegrateDel name file true = u.dir.deleteTreeName name := by
            simp [localReintegrateDel]
          simp only [hinfo, ne_eq, not_false_eq_true, decide_true, hdestroy]
          exact ⟨trivial, hdelete hremoves hrel⟩

theorem LocalInv.step (hd : d.WellFormed) (henv : env.Answers remote d) (h : LocalInv remote d (name :: rest) u) :
    (updateLocalEntry env name u).1 = ZFS_OK ∧ LocalInv remote d rest (updateLocalEntry env name u).2 := by
  obtain ⟨hok, hround⟩ := h.round hd henv name
  have hloop := h.loop.step hok
  refine ⟨hok, ?_⟩
  have hname : name ∉ rest := (List.nodup_cons.mp h.loop.nodup).1
  have hhidden : u.dir.Hidden name ↔ d.Hidden name := by
    rw [Hidden, h.root]
    rfl
  generalize (updateLocalEntry env name u).2 = u' at *
  cases hround with
  | skip _ hfree =>
    refine ⟨hloop, h.conflicts, h.clean, h.onlyDel, h.mapping, h.complete, h.root, h.masterVersion, h.lookup, h.files,
      h.named, h.remotes, ?_, ?_⟩
    · intro n a hn hmem
      obtain ⟨hrest, hj⟩ := h.synced n a hn hmem
      exact ⟨fun hr => hrest (List.mem_cons_of_mem name hr), hj⟩
    · intro n j hj hrest hn
      refine h.visited n j hj (fun hmem => ?_) hn
      rcases List.mem_cons.mp hmem with rfl | hmem
      · rw [hfree (fun hh => hn (hhidden.mp hh))] at hj
        cases hj
      · exact hrest hmem
  | keep file a _ hfile hremote hfh =>
    have hclear (n : Name) (hne : n ≠ name) : n ∈ (u.clearRemote name).remoteEntries ↔ n ∈ u.remoteEntries :=
      List.mem_erase_of_ne hne
    have hcleared : name ∉ (u.clearRemote name).remoteEntries := h.loop.remotes.not_mem_erase
    refine ⟨hloop, h.conflicts, h.clean, h.onlyDel, h.mapping, h.complete, h.root, h.masterVersion, h.lookup, h.files,
      h.named, fun n hn => h.remotes n (List.mem_of_mem_erase hn), ?_, ?_⟩
    · intro n b hn hmem
      by_cases heq : n = name
      · subst heq
        obtain rfl : a = b := Option.some_inj.mp (hremote.symm.trans hn)
        exact ⟨hname, file, hfile, hfh⟩
      · rw [hclear n heq] at hmem
        obtain ⟨hrest, hj⟩ := h.synced n b hn hmem
        exact ⟨fun hr => hrest (List.mem_cons_of_mem name hr), hj⟩
    · intro n j hj hrest hn
      by_cases heq : n = name
      · subst heq
        exact ⟨by rw [hremote]; exact Option.some_ne_none a, hcleared⟩
      · rw [hclear n heq]
        exact h.visited n j hj (fun hmem => hrest ((List.mem_cons.mp hmem).resolve_left heq)) hn
  | remove file d' _ hfile hentries hshrinks hdel _ =>
    have hlookup (n : Name) (j : ZfsFh) : d'.lookup n = some j ↔ n ≠ name ∧ u.dir.lookup n = some j := by
      rw [lookup_of_entries hentries]
      split_ifs with heq <;> simp [heq]
    have hclean := hshrinks.clean h.clean hloop.names
    -- a file with a name in the directory is not lost
    have hfound (n : Name) (j : ZfsFh) (hj : d'.lookup n = some j) : ¬ LosesFile env name u file j := by
      intro hlost
      have hmem := (mem_names hclean.names).mpr hj
      rw [(hshrinks.gone j hlost).2] at hmem
      cases hmem
    refine ⟨hloop, h.conflicts, hclean, hdel, hshrinks.mapping.trans h.mapping, hshrinks.complete.trans h.complete,
      hshrinks.root.trans h.root, hshrinks.masterVersion.trans h.masterVersion, ?_, ?_, ?_, h.remotes, ?_, ?_⟩
    · intro n j hj
      exact h.lookup n j ((hlookup n j).mp hj).2
    · intro j
      by_cases hlost : LosesFile env name u file j
      · exact Or.inr (hshrinks.gone j hlost)
      · rcases h.files j with hsame | ⟨hdeleted, hnames⟩
        · exact Or.inl (hsame.trans (hshrinks.same j hlost))
        · exact Or.inr ⟨hdeleted.trans (hshrinks.same j hlost), hshrinks.names j hnames⟩
    · intro j hj
      by_cases hlost : LosesFile env name u file j
      · exact absurd (hshrinks.gone j hlost).1.masterFh hj
      · have hfh : (u.dir.file j).masterFh ≠ none := by
          rwa [← (hshrinks.same j hlost).masterFh]
        exact hshrinks.named j hlost hfh (h.named j hfh)
    · intro n a hn hmem
      obtain ⟨hrest, j, hj, hfh⟩ := h.synced n a hn hmem
      have hj' : d'.lookup n = some j := (hlookup n j).mpr ⟨fun heq => hrest (heq ▸ List.mem_cons_self), hj⟩
      refine ⟨fun hr => hrest (List.mem_cons_of_mem name hr), j, hj', ?_⟩
      rw [← hfh]
      exact (hshrinks.same j (hfound n j hj')).masterFh
    · intro n j hj hrest hn
      obtain ⟨hne, hold⟩ := (hlookup n j).mp hj
      exact h.visited n j hold (fun hmem => hrest ((List.mem_cons.mp hmem).resolve_left hne)) hn

/-- The journal is empty and the files that get another name are still there. -/
def Intact (remote : RemoteDir) (d : LocalDir) (u : Updating) : Prop :=
  u.dir.fh.journal = [] ∧ ∀ n j, d.Moved remote n j → (u.dir.file j).masterFh = (d.file j).masterFh

theorem LocalDir.fhMapping_eq_some {a : ZfsFh} :
    d.fhMapping a = some j ↔ d.mapping a = some j ∧ (d.file j).masterFh = some a := by
  rw [fhMapping, Option.filter_eq_some_iff, decide_eq_true_eq]

theorem LocalDir.Moved.masterFh (h : d.Moved remote n j) : (d.file j).masterFh ≠ none := by
  obtain ⟨a, -, hmap, -⟩ := h
  rw [fhMapping_eq_some] at hmap
  rw [hmap.2]
  exact Option.some_ne_none _

theorem LocalInv.intact_iff (hd : d.WellFormed) (henv : env.Answers remote d) (h : LocalInv remote d (name :: rest) u) :
    Intact remote d (updateLocalEntry env name u).2 ↔ Intact remote d u ∧ SafeRemoval remote d env name u := by
  have hround := (h.round hd henv name).2
  generalize (updateLocalEntry env name u).2 = u' at *
  cases hround with
  | skip hremoves _ => simp [SafeRemoval, hremoves]
  | keep file a hremoves _ _ _ => simp [SafeRemoval, hremoves, Intact, Updating.clearRemote]
  | remove file d' hremoves hfile _ hshrinks _ hjournal =>
    have hmoved (n : Name) (j : ZfsFh) (hm : d.Moved remote n j) :
        (d'.file j).masterFh = (d.file j).masterFh ↔
          (u.dir.file j).masterFh = (d.file j).masterFh ∧ ¬ LosesFile env name u file j := by
      by_cases hlost : LosesFile env name u file j
      · refine iff_of_false (fun heq => hm.masterFh ?_) fun hand => hand.2 hlost
        rw [← heq]
        exact (hshrinks.gone j hlost).1.masterFh
      · rw [(hshrinks.same j hlost).masterFh]
        exact (and_iff_left hlost).symm
    simp only [Intact, SafeRemoval, hremoves, hfile, Option.mem_def, Option.some.injEq, forall_eq', forall_const, hjournal]
    constructor
    · rintro ⟨⟨hnil, hnot⟩, hall⟩
      exact ⟨⟨hnil, fun n j hm => ((hmoved n j hm).mp (hall n j hm)).1⟩, hnot,
        fun n j hm => ((hmoved n j hm).mp (hall n j hm)).2⟩
    · rintro ⟨⟨hnil, hall⟩, hnot, hkeep⟩
      exact ⟨⟨hnil, hnot⟩, fun n j hm => (hmoved n j hm).mpr ⟨hall n j hm, hkeep n j hm⟩⟩

end localInv

/-! ## The second loop -/

/-- The directory `d'` is `d` with another name of a file. -/
structure LocalDir.Adds (d d' : LocalDir) (name : Name) (file : ZfsFh) : Prop where
  entries : d'.entries = (d.addName name file).entries
  fh : d'.fh = d.fh
  complete : d'.complete = d.complete
  files : ∀ j, j ≠ file → d'.file j = d.file j

section adds

variable {d d' : LocalDir} {name n : Name} {file j : ZfsFh}

theorem LocalDir.Adds.lookup (h : d.Adds d' name file) (hfree : d.lookup name = none) :
    d'.lookup n = if n = name then some file else d.lookup n := by
  rw [LocalDir.lookup, h.entries]
  exact lookup_addName hfree

theorem LocalDir.Adds.nHardlinks_of_ne (h : d.Adds d' name file) (hj : j ≠ file) : d'.nHardlinks j = d.nHardlinks j := by
  have hnames : d'.names j = d.names j := by
    simp [names, h.entries, addName, List.filter_append, Ne.symm hj]
  rw [nHardlinks, nHardlinks, hnames, h.files j hj]

theorem LocalDir.Adds.nHardlinks_self (h : d.Adds d' name file) : d'.nHardlinks file ≠ 0 := by
  simp [nHardlinks, names, h.entries, addName, List.filter_append]

/-- `local_reintegrate_add` of a file that is there, to a free name; a directory has no other name here. -/
theorem localReintegrateAdd_adds (hfree : d.lookup name = none) (hlinks : d.nHardlinks file ≠ 0)
    (hdir : (d.file file).type = .dir → d.names file = []) :
    (d.localReintegrateAdd name file).1 = ZFS_OK ∧ d.Adds (d.localReintegrateAdd name file).2 name file ∧
      (d.localReintegrateAdd name file).2.mapping = d.mapping ∧
      (d.file file).Same ((d.localReintegrateAdd name file).2.file file) := by
  rw [localReintegrateAdd_of_free hfree, if_neg hlinks]
  have hset (e : LocalDir) (os : List NamePlace) (he : e.entries = (d.addName name file).entries) (hf : e.fh = d.fh)
      (hc : e.complete = d.complete) (hm : e.mapping = d.mapping) (hfile : e.file = d.file) :
      d.Adds (e.setFile file { d.file file with others := os }) name file ∧
        (e.setFile file { d.file file with others := os }).mapping = d.mapping ∧
        (d.file file).Same ((e.setFile file { d.file file with others := os }).file file) := by
    refine ⟨⟨he, hf, hc, fun j hj => ?_⟩, hm, ?_⟩
    · exact (Function.update_of_ne hj _ _).trans (congrFun hfile j)
    · have : (e.setFile file { d.file file with others := os }).file file = _ := Function.update_self ..
      rw [this]
      exact .others ..
  split_ifs with hshadow htype
  · exact ⟨rfl, hset _ _ rfl rfl rfl rfl rfl⟩
  · have hentries : d.entries.filter (·.2 ≠ file) = d.entries := by
      have hnone := hdir htype
      rw [names, List.map_eq_nil_iff, List.filter_eq_nil_iff] at hnone
      refine List.filter_eq_self.mpr fun e he => ?_
      simpa using hnone e he
    refine ⟨rfl, hset _ _ ?_ rfl rfl rfl rfl⟩
    simp only [addName, hentries]
  · exact ⟨rfl, ⟨rfl, rfl, rfl, fun _ _ => rfl⟩, rfl, .refl _⟩

theorem createLocalFh_adds (remote : ZfsFh) (attr : Fattr) :
    d.Adds (d.createLocalFh file name remote attr) name file :=
  ⟨rfl, rfl, rfl, fun _ hj => Function.update_of_ne hj _ _⟩

end adds

/-- The variables of the second loop when `rest` are the remote entries that are left; `d₁` is the
directory before the loop. -/
structure RemoteInv (remote : RemoteDir) (env : UpdateDirEnv) (d₁ : LocalDir) (rest : List Name) (u : Updating) :
    Prop where
  loop : RemoteRest rest u
  conflicts : u.conflicts = []
  fh : u.dir.fh = d₁.fh
  complete : u.dir.complete = d₁.complete
  remotes : ∀ n ∈ rest, remote.lookup n ≠ none ∧ ¬ d₁.Hidden n
  right : ∀ n j, ¬ d₁.Hidden n → u.dir.lookup n = some j →
    ∃ a, remote.lookup n = some a ∧ (u.dir.file j).masterFh = some a.1
  hidden : ∀ n j, d₁.Hidden n → u.dir.lookup n = some j → (u.dir.file j).masterFh = none
  done : d₁.fh.journal = [] → ∀ n, remote.lookup n ≠ none → n ∉ rest → u.dir.lookup n ≠ none
  mapped : ∀ j fh, (u.dir.file j).masterFh = some fh → u.dir.mapping fh = some j
  named : ∀ j, (u.dir.file j).masterFh ≠ none → u.dir.nHardlinks j ≠ 0
  plain : ∀ j fh, (u.dir.file j).masterFh = some fh → remote.Linked fh → (u.dir.file j).type ≠ .dir
  old : ∀ j, (∀ n, remote.lookup n ≠ none → env.newFile n ≠ j) → (u.dir.file j).masterFh = (d₁.file j).masterFh
  unused : ∀ n ∈ rest, (∀ n', u.dir.lookup n' ≠ some (env.newFile n)) ∧ ∀ fh, u.dir.mapping fh ≠ some (env.newFile n)

section remoteInv

variable {env : UpdateDirEnv} {remote : RemoteDir} {d d₁ d' : LocalDir} {name : Name} {file : ZfsFh} {rest : List Name}
  {u : Updating} {a : ZfsFh × Fattr}

theorem RemoteInv.add (h : RemoteInv remote env d₁ (name :: rest) u) (ha : remote.lookup name = some a)
    (hloop : RemoteRest rest { u with dir := d' }) (hadds : u.dir.Adds d' name file)
    (hfh : (d'.file file).masterFh = some a.1)
    (hold : (d'.file file).masterFh = (u.dir.file file).masterFh ∨ file = env.newFile name)
    (honly : ∀ j, (u.dir.file j).masterFh = some a.1 → j = file)
    (hmapping : d'.mapping = Function.update u.dir.mapping a.1 (some file))
    (hplain : remote.Linked a.1 → (d'.file file).type ≠ .dir) (hnew : ∀ n ∈ rest, file ≠ env.newFile n) :
    RemoteInv remote env d₁ rest { u with dir := d' } := by
  have hfree := h.loop.free name List.mem_cons_self
  obtain ⟨hremote, hnothidden⟩ := h.remotes name List.mem_cons_self
  have hlookup (n : Name) : d'.lookup n = if n = name then some file else u.dir.lookup n := hadds.lookup hfree
  -- a file that has a name keeps its master file handle
  have hkeep (n : Name) (j : ZfsFh) (hj : u.dir.lookup n = some j) : (d'.file j).masterFh = (u.dir.file j).masterFh := by
    by_cases heq : j = file
    · subst heq
      refine hold.resolve_right ?_
      rintro rfl
      exact (h.unused name List.mem_cons_self).1 n hj
    · rw [hadds.files j heq]
  refine ⟨hloop, h.conflicts, hadds.fh.trans h.fh, hadds.complete.trans h.complete,
    fun n hn => h.remotes n (List.mem_cons_of_mem name hn), ?_, ?_, ?_, ?_, ?_, ?_, ?_, ?_⟩
  · intro n j hn hj
    rw [hlookup] at hj
    split_ifs at hj with heq
    · cases hj
      exact ⟨a, heq ▸ ha, hfh⟩
    · rw [hkeep n j hj]
      exact h.right n j hn hj
  · intro n j hn hj
    have hne : n ≠ name := by
      rintro rfl
      exact hnothidden hn
    rw [hlookup, if_neg hne] at hj
    rw [hkeep n j hj]
    exact h.hidden n j hn hj
  · intro hjournal n hn hrest
    rw [hlookup]
    split_ifs with heq
    · exact Option.some_ne_none file
    · exact h.done hjournal n hn fun hmem => hrest ((List.mem_cons.mp hmem).resolve_left heq)
  · intro j fh hj
    rw [hmapping]
    by_cases heq : j = file
    · subst heq
      rw [hfh] at hj
      cases hj
      exact Function.update_self ..
    · rw [hadds.files j heq] at hj
      have hne : fh ≠ a.1 := by
        rintro rfl
        exact heq (honly j hj)
      rw [Function.update_of_ne hne]
      exact h.mapped j fh hj
  · intro j hj
    by_cases heq : j = file
    · subst heq
      exact hadds.nHardlinks_self
    · rw [hadds.files j heq] at hj
      rw [hadds.nHardlinks_of_ne heq]
      exact h.named j hj
  · intro j fh hj hlinked
    by_cases heq : j = file
    · subst heq
      rw [hfh] at hj
      cases hj
      exact hplain hlinked
    · rw [hadds.files j heq] at hj ⊢
      exact h.plain j fh hj hlinked
  · intro j hj
    by_cases heq : j = file
    · subst heq
      rw [hold.resolve_right fun hf => hj name hremote hf.symm]
      exact h.old j hj
    · rw [hadds.files j heq]
      exact h.old j hj
  · intro n hn
    obtain ⟨hnames, hslots⟩ := h.unused n (List.mem_cons_of_mem name hn)
    refine ⟨fun n' => ?_, fun fh => ?_⟩
    · rw [hlookup]
      split_ifs
      · exact fun heq => hnew n hn (Option.some_inj.mp heq)
      · exact hnames n'
    · rw [hmapping, Function.update_apply]
      split_ifs
      · exact fun heq => hnew n hn (Option.some_inj.mp heq)
      · exact hslots fh

theorem RemoteInv.step (henv : env.Answers remote d) (h : RemoteInv remote env d₁ (name :: rest) u) :
    (updateRemoteEntry env name u).1 = ZFS_OK ∧ RemoteInv remote env d₁ rest (updateRemoteEntry env name u).2 := by
  have hloop : RemoteRest rest (updateRemoteEntry env name u).2 := h.loop.step
  have hfree := h.loop.free name List.mem_cons_self
  obtain ⟨hremote, hnothidden⟩ := h.remotes name List.mem_cons_self
  obtain ⟨a, ha⟩ := Option.ne_none_iff_exists'.mp hremote
  have hlookup := (henv.remoteLookup name a ha).2
  by_cases hdel : ∃ e ∈ u.dir.fh.journal, e.key = (.del, name)
  · rw [updateRemoteEntry, if_pos hdel] at hloop ⊢
    refine ⟨rfl, hloop, h.conflicts, h.fh, h.complete, fun n hn => h.remotes n (List.mem_cons_of_mem name hn), h.right,
      h.hidden, ?_, h.mapped, h.named, h.plain, h.old, fun n hn => h.unused n (List.mem_cons_of_mem name hn)⟩
    intro hjournal
    obtain ⟨e, he, -⟩ := hdel
    rw [h.fh, hjournal] at he
    cases he
  simp only [updateRemoteEntry, if_neg hdel, hlookup] at hloop ⊢
  cases hmap : u.dir.fhMapping a.1 with
  | some file =>
    simp only [hmap] at hloop ⊢
    rw [fhMapping_eq_some] at hmap
    obtain ⟨hslot, hfh⟩ := hmap
    have hlinks := h.named file (by simp [hfh])
    -- a directory that had a name here would be listed twice
    have hdir : (u.dir.file file).type = .dir → u.dir.names file = [] := by
      intro hdir
      by_contra hne
      obtain ⟨n, hn⟩ := List.exists_mem_of_ne_nil _ hne
      have hj := (mem_names h.loop.names).mp hn
      by_cases hhidden : d₁.Hidden n
      · have := h.hidden n file hhidden hj
        rw [hfh] at this
        cases this
      obtain ⟨b, hb, hfh'⟩ := h.right n file hhidden hj
      have heq : b.1 = a.1 := Option.some_inj.mp (hfh'.symm.trans hfh)
      have hneq : n ≠ name := by
        rintro rfl
        rw [hfree] at hj
        cases hj
      refine h.plain file a.1 hfh ⟨n, name, b.2, a.2, hneq, ?_, ha⟩ hdir
      rw [hb, ← heq]
    obtain ⟨hok, hadds, hmapping, hsame⟩ := localReintegrateAdd_adds hfree hlinks hdir
    refine ⟨hok, h.add ha hloop hadds (hsame.masterFh.trans hfh) (.inl hsame.masterFh) ?_ ?_ ?_ ?_⟩
    · intro j hj
      exact Option.some_inj.mp ((h.mapped j a.1 hj).symm.trans hslot)
    · rw [hmapping, ← hslot, Function.update_eq_self]
    · intro hlinked
      rw [hsame.type]
      exact h.plain file a.1 hfh hlinked
    · rintro n hn rfl
      exact (h.unused n (List.mem_cons_of_mem name hn)).2 a.1 hslot
  | none =>
    simp only [hmap] at hloop ⊢
    have hfile : (u.dir.createLocalFh (env.newFile name) name a.1 a.2).file (env.newFile name) = _ :=
      Function.update_self ..
    refine ⟨trivial, h.add ha hloop (createLocalFh_adds a.1 a.2) (by rw [hfile]) (.inr rfl) ?_ rfl ?_ ?_⟩
    · intro j hj
      have : u.dir.fhMapping a.1 = some j := fhMapping_eq_some.mpr ⟨h.mapped j a.1 hj, hj⟩
      rw [hmap] at this
      cases this
    · intro hlinked
      rw [hfile]
      exact (henv.linked a.1 hlinked).1 name a.2 ha
    · intro n hn heq
      have hmem (n : Name) (hn : remote.lookup n ≠ none) : n ∈ remote.map Prod.fst := by
        by_contra hnot
        exact hn (lookup_eq_none.mpr hnot)
      have := henv.newFile_inj name (hmem name hremote) n (hmem n (h.remotes n (List.mem_cons_of_mem name hn)).1) heq
      exact (List.nodup_cons.mp h.loop.nodup).1 (this ▸ hn)

end remoteInv

/-! ## The whole update -/

section update

variable {env : UpdateDirEnv} {remote : RemoteDir} {d : LocalDir} {u : Updating} {version : ℕ}

theorem mem_names_of_lookup {n : Name} {a : ZfsFh × Fattr} (h : remote.lookup n = some a) : n ∈ remote.map Prod.fst := by
  by_contra hn
  rw [lookup_eq_none.mpr hn] at h
  cases h

section rounds
variable (hd : d.WellFormed) (henv : env.Answers remote d)
include hd henv

theorem UpdateDirEnv.Answers.localInv :
    LocalInv remote d env.localReaddir ⟨d, remote.map Prod.fst, []⟩ := by
  have hloop := henv.reads.localRest henv.remoteReaddir
  refine ⟨hloop, rfl, hd.clean, ?_, rfl, rfl, rfl, rfl, fun _ _ h => h, fun _ => .inl (.refl _), hd.named, ?_, ?_, ?_⟩
  · intro e he
    rw [hd.journal] at he
    cases he
  · intro n hn hnone
    exact lookup_eq_none.mp hnone hn
  · intro n a hn hmem
    exact absurd (mem_names_of_lookup hn) hmem
  · intro n j hj hmem
    rw [henv.reads.localReaddir.mem_iff] at hmem
    rw [lookup, lookup_eq_none.mpr hmem] at hj
    cases hj

theorem LocalInv.remoteInv (h : LocalInv remote d [] u) :
    RemoteInv remote env u.dir u.remoteEntries u := by
  have hhidden (n : Name) : u.dir.Hidden n ↔ d.Hidden n := by
    rw [Hidden, h.root]
    rfl
  have hfile (j : ZfsFh) (hj : (u.dir.file j).masterFh ≠ none) : (d.file j).Same (u.dir.file j) :=
    (h.files j).resolve_right fun hdel => hj hdel.1.masterFh
  refine ⟨h.loop.remoteRest, h.conflicts, rfl, rfl, ?_, ?_, ?_, ?_, ?_, h.named, ?_, fun _ _ => rfl, ?_⟩
  · intro n hn
    refine ⟨h.remotes n hn, ?_⟩
    rintro ⟨hroot, rfl⟩
    exact h.loop.hidden hroot hn
  · intro n j hn hj
    obtain ⟨hremote, hleft⟩ := h.visited n j hj List.not_mem_nil (mt (hhidden n).mpr hn)
    obtain ⟨a, ha⟩ := Option.ne_none_iff_exists'.mp hremote
    obtain ⟨-, i, hi, hfh⟩ := h.synced n a ha hleft
    rw [hj] at hi
    cases hi
    exact ⟨a, ha, hfh⟩
  · intro n j hn hj
    rw [(h.same_of_lookup hj).masterFh]
    exact hd.hidden n j ((hhidden n).mp hn) (h.lookup n j hj)
  · intro _ n hn hleft
    obtain ⟨a, ha⟩ := Option.ne_none_iff_exists'.mp hn
    obtain ⟨-, i, hi, -⟩ := h.synced n a ha hleft
    rw [hi]
    exact Option.some_ne_none i
  · intro j fh hj
    rw [h.mapping]
    refine hd.mapped j fh ?_
    rw [← hj]
    exact (hfile j (by simp [hj])).masterFh.symm
  · intro j fh hj hlinked
    have hsame := hfile j (by simp [hj])
    rw [hsame.type]
    exact (henv.linked fh hlinked).2 j (hsame.masterFh.symm.trans hj)
  · intro n hn
    obtain ⟨a, ha⟩ := Option.ne_none_iff_exists'.mp (h.remotes n hn)
    obtain ⟨hnames, hslots⟩ := henv.newFile n (mem_names_of_lookup ha)
    refine ⟨fun n' hj => hnames n' (h.lookup n' _ hj), ?_⟩
    rw [h.mapping]
    exact hslots

theorem LocalDir.CopyOf.not_moved (h : d.CopyOf remote) {n : Name} {j : ZfsFh} : ¬ d.Moved remote n j := by
  rintro ⟨a, ha, hmap, hne⟩
  rw [fhMapping_eq_some] at hmap
  have hhidden : ¬ d.Hidden n := by
    rintro ⟨hroot, rfl⟩
    exact (henv.reads.remoteReaddir _ henv.remoteReaddir).2 hroot (mem_names_of_lookup ha)
  have hsome : remote.lookup n ≠ none := by simp [ha]
  obtain ⟨i, hi⟩ := Option.ne_none_iff_exists'.mp ((h.names n hhidden).mpr hsome)
  have hslot := hd.mapped i a.1 (h.masterFh n i a hi ha)
  rw [hmap.1] at hslot
  exact hne (hi.trans hslot.symm)

theorem updateDir_rounds (hup : d.upToDate version = false) :
    ∃ u1 u2, LocalInv remote d [] u1 ∧ RemoteInv remote env u1.dir [] u2 ∧
      (Intact remote d u1 ↔ ∀ x ∈ localSteps env d version, SafeRemoval remote d env x.1 x.2) ∧
      updateDir env d version =
        (ZFS_OK, if u2.dir.fh.journal = [] then u2.dir.setMetadata true version else u2.dir) := by
  have hstart := henv.localInv hd
  have hbefore : Intact remote d ⟨d, remote.map Prod.fst, []⟩ := ⟨hd.journal, fun _ _ _ => rfl⟩
  obtain ⟨hok1, hlocal⟩ : (updateLocalEntries env (remote.map Prod.fst) d).1 = ZFS_OK ∧ LocalInv remote d [] _ :=
    forEach_ok (I := LocalInv remote d) (fun _ _ _ h => h.step hd henv) _ _ hstart
  have hintact : Intact remote d (updateLocalEntries env (remote.map Prod.fst) d).2 ↔ _ :=
    forEach_iff (I := LocalInv remote d) (fun _ _ _ h => h.step hd henv) (fun _ _ _ h => h.intact_iff hd henv) _ _ hstart
  rw [and_iff_right hbefore] at hintact
  obtain ⟨u1, hu1⟩ : ∃ u1, updateLocalEntries env (remote.map Prod.fst) d = (ZFS_OK, u1) := ⟨_, Prod.ext hok1 rfl⟩
  change LocalInv remote d [] (updateLocalEntries env (remote.map Prod.fst) d).2 at hlocal
  rw [hu1] at hintact hlocal
  obtain ⟨hok2, hremote⟩ :
      (forEach ZFS_OK (updateRemoteEntry env) u1.remoteEntries u1).1 = ZFS_OK ∧ RemoteInv remote env u1.dir [] _ :=
    forEach_ok (I := RemoteInv remote env u1.dir) (fun _ _ _ h => h.step henv) _ _ (hlocal.remoteInv hd henv)
  obtain ⟨u2, hu2⟩ : ∃ u2, forEach ZFS_OK (updateRemoteEntry env) u1.remoteEntries u1 = (ZFS_OK, u2) :=
    ⟨_, Prod.ext hok2 rfl⟩
  rw [hu2] at hremote
  refine ⟨u1, u2, hlocal, hremote, ?_, ?_⟩
  · rw [localSteps, if_neg (by simp [hup]), henv.remoteReaddir]
    exact hintact
  · have hentries : updateEntries env (remote.map Prod.fst) d = (ZFS_OK, u2) := by
      rw [updateEntries, hu1]
      exact hu2
    have hconf : u2.conflicts = [] := hremote.conflicts
    rw [updateDir, if_neg (by simp [hup]), henv.remoteReaddir]
    simp only [hentries, hconf, and_true, decide_true]

end rounds

theorem RemoteInv.moved {d₁ : LocalDir} {rest : List Name} {n : Name} {j : ZfsFh} (henv : env.Answers remote d)
    (h : RemoteInv remote env d₁ rest u) (hm : d.Moved remote n j) :
    (u.dir.file j).masterFh = (d₁.file j).masterFh := by
  refine h.old j fun n' hn' heq => ?_
  obtain ⟨a, -, hmap, -⟩ := hm
  obtain ⟨b, hb⟩ := Option.ne_none_iff_exists'.mp hn'
  rw [fhMapping_eq_some] at hmap
  exact (henv.newFile n' (mem_names_of_lookup hb)).2 a.1 (heq ▸ hmap.1)

section rounds

variable {u1 u2 : Updating} (henv : env.Answers remote d) (hinv : LocalInv remote d [] u1)
  (h : RemoteInv remote env u1.dir [] u2)
include henv hinv h

theorem RemoteInv.copyOf (hjournal : u1.dir.fh.journal = []) : u2.dir.CopyOf remote := by
  have hhidden (n : Name) : u2.dir.Hidden n ↔ u1.dir.Hidden n := by
    rw [Hidden, h.fh]
    rfl
  refine ⟨fun n hn => ⟨fun hne => ?_, fun hne => h.done hjournal n hne List.not_mem_nil⟩, fun n j a hj ha => ?_⟩
  · obtain ⟨j, hj⟩ := Option.ne_none_iff_exists'.mp hne
    obtain ⟨a, ha, -⟩ := h.right n j (mt (hhidden n).mpr hn) hj
    rw [ha]
    exact Option.some_ne_none a
  · have hn : ¬ u1.dir.Hidden n := by
      rintro ⟨hroot, rfl⟩
      rw [hinv.root] at hroot
      exact (henv.reads.remoteReaddir _ henv.remoteReaddir).2 hroot (mem_names_of_lookup ha)
    obtain ⟨b, hb, hfh⟩ := h.right n j hn hj
    rw [ha] at hb
    cases hb
    exact hfh

theorem RemoteInv.converged (hintact : Intact remote d u1) :
    d.Converged remote version (u2.dir.setMetadata true version) := by
  have hcopy := h.copyOf henv hinv hintact.1
  refine ⟨⟨hcopy.names, hcopy.masterFh⟩, fun n j hm => ?_, rfl, rfl, rfl⟩
  -- two files with one master file handle are one file
  have hfh := (h.moved henv hm).trans (hintact.2 n j hm)
  obtain ⟨a, ha, hmap, -⟩ := hm
  rw [fhMapping_eq_some] at hmap
  have hfound := h.done hintact.1 n (by simp [ha]) List.not_mem_nil
  obtain ⟨i, hi⟩ := Option.ne_none_iff_exists'.mp hfound
  have hj := h.mapped j a.1 (hfh.trans hmap.2)
  rw [h.mapped i a.1 (hcopy.masterFh n i a hi ha)] at hj
  cases hj
  exact hi

theorem RemoteInv.intact (hup : d.upToDate version = false)
    (hconv : d.Converged remote version (if u2.dir.fh.journal = [] then u2.dir.setMetadata true version else u2.dir)) :
    Intact remote d u1 := by
  rw [h.fh] at hconv
  have hjournal : u1.dir.fh.journal = [] := by
    by_contra hne
    -- the version was not stored
    rw [if_neg hne] at hconv
    have hversion := hconv.masterVersion
    have hcomplete := hconv.complete
    rw [h.fh, hinv.masterVersion] at hversion
    rw [h.complete, hinv.complete] at hcomplete
    simp [upToDate, hversion, hcomplete] at hup
  rw [if_pos hjournal] at hconv
  refine ⟨hjournal, fun n j hm => ?_⟩
  have hj := hconv.kept n j hm
  rw [← h.moved henv hm]
  obtain ⟨a, ha, hmap, -⟩ := hm
  rw [fhMapping_eq_some] at hmap
  rw [hmap.2]
  exact hconv.copy.masterFh n j a hj ha

end rounds

/-- The update ends with a copy of the remote directory, with the files that were moved under their new
names and with the new version, if and only if no round of the first loop loses such a file or writes the
journal. A directory that counts as up to date must be a copy before. -/
theorem updateDir_converges_iff (hd : d.WellFormed) (henv : env.Answers remote d) :
    (updateDir env d version).1 = ZFS_OK ∧
      (d.Converged remote version (updateDir env d version).2 ↔
        (d.upToDate version = true → d.CopyOf remote ∧ d.fh.localVersion = version) ∧
          ∀ x ∈ localSteps env d version, SafeRemoval remote d env x.1 x.2) := by
  cases hup : d.upToDate version with
  | true =>
    have hversion : d.fh.masterVersion = version ∧ d.complete = true := by simpa [upToDate] using hup
    simp only [updateDir, localSteps, hup, if_true, forall_const, List.not_mem_nil, false_imp_iff, implies_true, and_true,
      true_and]
    constructor
    · intro h
      exact ⟨h.copy, h.localVersion⟩
    · rintro ⟨hcopy, hlocal⟩
      exact ⟨hcopy, fun n j hm => absurd hm (hcopy.not_moved hd henv), hlocal, hversion.1, hversion.2⟩
  | false =>
    obtain ⟨u1, u2, hinv, h, hintact, hres⟩ := updateDir_rounds hd henv hup
    rw [hres, ← hintact]
    simp only [Bool.false_eq_true, false_imp_iff, true_and]
    constructor
    · exact h.intact henv hinv hup
    · intro hi
      rw [h.fh, if_pos hi.1]
      exact h.converged henv hinv hi

end update

/-! ## A directory that the master has renamed from `a` to `b` -/

def renamedDir (empty : Bool) : LocalDir where
  fh := ⟨1, 1, 1, [], false, []⟩
  complete := true
  shadowTree := false
  entries := [([97], ⟨1, 1, 1, 5, 1⟩)]
  file j := if j = ⟨1, 1, 1, 5, 1⟩ then ⟨.dir, some ⟨2, 1, 1, 7, 1⟩, 1, 1, false, [], empty⟩ else .deleted
  mapping fh := if fh = ⟨2, 1, 1, 7, 1⟩ then some ⟨1, 1, 1, 5, 1⟩ else none

def renamedRemote : RemoteDir := [([98], ⟨2, 1, 1, 7, 1⟩, ⟨.dir, 493, 0, 0, 0, 1⟩)]

def renamedEnv : UpdateDirEnv where
  localReaddir := [[97]]
  remoteReaddir := .ok [[98]]
  remoteLookup _ := .ok (⟨2, 1, 1, 7, 1⟩, ⟨.dir, 493, 0, 0, 0, 1⟩)
  remoteLookupAgain _ := .ok (⟨2, 1, 1, 7, 1⟩, ⟨.dir, 493, 0, 0, 0, 1⟩)
  filesAreTheSame _ := true
  synchronizeFile _ := ZFS_OK
  remoteFileInfo _ := ZFS_OK
  newFile _ := ⟨1, 1, 1, 6, 1⟩

theorem lookup_renamedRemote {n : Name} {a : ZfsFh × Fattr} (h : renamedRemote.lookup n = some a) :
    n = [98] ∧ a = (⟨2, 1, 1, 7, 1⟩, ⟨.dir, 493, 0, 0, 0, 1⟩) := by
  rw [lookup_eq_some (by decide), renamedRemote, List.mem_singleton, Prod.mk.injEq] at h
  exact h

theorem lookup_renamedDir {empty : Bool} {n : Name} {j : ZfsFh} (h : (renamedDir empty).lookup n = some j) :
    n = [97] ∧ j = ⟨1, 1, 1, 5, 1⟩ := by
  have hnodup : ((renamedDir empty).entries.map Prod.fst).Nodup := List.nodup_singleton _
  rw [lookup, lookup_eq_some hnodup, renamedDir, List.mem_singleton, Prod.mk.injEq] at h
  exact h

theorem masterFh_renamedDir {empty : Bool} {j fh : ZfsFh} (h : ((renamedDir empty).file j).masterFh = some fh) :
    j = ⟨1, 1, 1, 5, 1⟩ ∧ fh = ⟨2, 1, 1, 7, 1⟩ := by
  simp only [renamedDir] at h
  split_ifs at h with hj
  · exact ⟨hj, (Option.some_inj.mp h).symm⟩
  · cases h

theorem renamedDir_wellFormed (empty : Bool) : (renamedDir empty).WellFormed where
  clean := by
    refine ⟨List.nodup_singleton _, fun j _ => ?_, fun j hdir => ?_⟩
    · simp only [renamedDir]
      split_ifs <;> rfl
    · simp only [renamedDir] at hdir
      split_ifs at hdir with hj
      · subst hj
        cases empty <;> decide
      · cases hdir
  mapped := by
    intro j fh h
    obtain ⟨rfl, rfl⟩ := masterFh_renamedDir h
    rfl
  named := by
    intro j h
    obtain ⟨fh, hfh⟩ := Option.ne_none_iff_exists'.mp h
    obtain ⟨rfl, -⟩ := masterFh_renamedDir hfh
    cases empty <;> decide
  unmodified := by
    intro n j _ h
    obtain ⟨-, rfl⟩ := lookup_renamedDir h
    rfl
  hidden := by
    intro n j h _
    exact absurd h.1 Bool.false_ne_true
  journal := rfl

theorem renamedEnv_answers (empty : Bool) : renamedEnv.Answers renamedRemote (renamedDir empty) where
  reads := ⟨List.nodup_singleton _, List.Perm.refl _, by
    intro remotes h
    obtain rfl := Except.ok.inj h
    exact ⟨by decide, fun h => absurd h Bool.false_ne_true⟩⟩
  remoteReaddir := rfl
  remoteLookup := by
    intro n a h
    obtain ⟨-, rfl⟩ := lookup_renamedRemote h
    exact ⟨rfl, rfl⟩
  synchronizeFile _ := rfl
  linked := by
    rintro fh ⟨n, n', a, a', hne, h, h'⟩
    exact absurd ((lookup_renamedRemote h).1.trans (lookup_renamedRemote h').1.symm) hne
  newFile := by
    intro n _
    refine ⟨fun n' h => ?_, fun fh h => ?_⟩
    · have := (lookup_renamedDir h).2
      simp [renamedEnv] at this
    · simp only [renamedDir] at h
      split_ifs at h
      simp [renamedEnv] at h
  newFile_inj := by decide

/-- A directory with files gets its new name. -/
theorem updateDir_converges_renamed :
    (renamedDir false).Converged renamedRemote 2 (updateDir renamedEnv (renamedDir false) 2).2 := by
  refine (updateDir_converges_iff (renamedDir_wellFormed false) (renamedEnv_answers false)).2.mpr
    ⟨fun h => absurd h (by decide), ?_⟩
  intro x hx
  obtain rfl : x = ([97], ⟨renamedDir false, [[98]], []⟩) := List.mem_singleton.mp hx
  intro _ file hfile
  obtain ⟨-, rfl⟩ := lookup_renamedDir hfile
  have hkept : ¬ (renamedDir false).DeletesEmpty ⟨1, 1, 1, 5, 1⟩ := fun h => Bool.false_ne_true h.2.2
  exact ⟨fun h => hkept h.2.1, fun n j _ h => hkept h.2⟩

/-- An empty directory is deleted and created again, and the new version is not stored. -/
theorem updateDir_loses_renamed :
    ∃ env remote d version, d.WellFormed ∧ env.Answers remote d ∧ (updateDir env d version).1 = ZFS_OK ∧
      (∃ n j, d.Moved remote n j ∧ (updateDir env d version).2.lookup n ≠ some j) ∧
      (updateDir env d version).2.fh.masterVersion ≠ version :=
  ⟨renamedEnv, renamedRemote, renamedDir true, 2, renamedDir_wellFormed true, renamedEnv_answers true,
    by decide +kernel, ⟨[98], ⟨1, 1, 1, 5, 1⟩, ⟨_, rfl, by decide +kernel, by decide +kernel⟩, by decide +kernel⟩,
    by decide +kernel⟩

end ZFS
