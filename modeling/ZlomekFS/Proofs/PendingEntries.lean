import ZlomekFS.Proofs.UpdateDir

/-! `update` of a directory and the entries that are still pending in its journal when `reintegrate_dir`
has stopped, wherever that was. The first loop of `update_dir` removes a pending entry if it takes the
file for one that the master deleted or replaced; the second loop removes one if it renames the directory
that has the name. -/

namespace ZFS
open Loops Tables LocalDir

/-- A name whose addition is pending in the journal, and its file. -/
def LocalDir.Pending (d : LocalDir) (name : Name) (file : ZfsFh) : Prop :=
  (∃ e ∈ d.fh.journal, e.key = (.add, name)) ∧ d.lookup name = some file

instance (d : LocalDir) (name : Name) (file : ZfsFh) : Decidable (d.Pending name file) :=
  inferInstanceAs (Decidable (_ ∧ _))

/-- The pending files of `d` have their names, or there is a conflict about the name. -/
def Updating.Keeps (d : LocalDir) (u : Updating) : Prop :=
  ∀ name file, d.Pending name file → u.dir.lookup name = some file ∨ name ∈ u.conflicts

/-- Whether the first loop removes the entry: the master has another file, or no file, under the name, and
the local file has no master file handle, is unmodified, or is a special file with other contents. -/
def removesEntry (env : UpdateDirEnv) (name : Name) (u : Updating) : Bool :=
  if u.dir.fh.localVolumeRoot ∧ name = SHADOW_NAME then false
  else
    match u.dir.lookup name with
    | none => false
    | some file =>
      let f := u.dir.file file
      if name ∈ u.remoteEntries then
        match env.remoteLookup name with
        | .error _ => false
        | .ok (remote, _) =>
          if f.masterFh = some remote then !env.filesAreTheSame name else f.version = f.masterVersion
      else f.masterFh = none || f.version = f.masterVersion

def movesDir (env : UpdateDirEnv) (name : Name) (u : Updating) : Option ZfsFh :=
  if ∃ e ∈ u.dir.fh.journal, e.key = (.del, name) then none
  else
    match env.remoteLookupAgain name with
    | .error _ => none
    | .ok (remote, _) => (u.dir.fhMapping remote).filter u.dir.renames

/-! ## The first loop -/

/-- What a round leaves of the names, of the conflicts and of the slots of the remote entries. -/
theorem updateLocalEntry_cases (env : UpdateDirEnv) (name : Name) (u : Updating) :
    let r := (updateLocalEntry env name u).1
    let u' := (updateLocalEntry env name u).2
    u'.dir.fh.localVolumeRoot = u.dir.fh.localVolumeRoot ∧
    ((removesEntry env name u = true ∧ u'.dir.entries = (u.dir.removeName name).entries ∧
        u'.remoteEntries = u.remoteEntries ∧ u'.conflicts = u.conflicts) ∨
      (removesEntry env name u = false ∧ u'.dir.entries = u.dir.entries ∧
        (u'.conflicts = u.conflicts ∨ u'.conflicts = u.conflicts ++ [name]) ∧
        (u'.remoteEntries = u.remoteEntries.erase name ∨
          (u'.remoteEntries = u.remoteEntries ∧
            (r ≠ ZFS_OK ∨ name ∉ u.remoteEntries ∨ u.dir.lookup name = none ∨
              (u.dir.fh.localVolumeRoot ∧ name = SHADOW_NAME)))))) := by
  unfold updateLocalEntry removesEntry
  by_cases hroot : u.dir.fh.localVolumeRoot = true ∧ name = SHADOW_NAME
  · simp [hroot]
  simp only [if_neg hroot]
  cases hfile : u.dir.lookup name with
  | none => simp
  | some file =>
    dsimp only
    by_cases hremote : name ∈ u.remoteEntries
    · simp only [if_pos hremote]
      cases hlookup : env.remoteLookup name with
      | error r => simp [r.2]
      | ok ans =>
        obtain ⟨remote, attr⟩ := ans
        dsimp only
        split_ifs with hfh hsame hsync hver
        · simp [hsame, hsync]
        · simp [hsame, Updating.clearRemote]
        · simp [hsame, entries_deleteTreeName, fh_deleteTreeName]
        · simp [hver, entries_deleteTreeName, fh_deleteTreeName]
        · simp [hver, Updating.clearRemote, Updating.createConflict, createConflict]
    · simp only [if_neg hremote]
      cases hfh : (u.dir.file file).masterFh with
      | none => simp [entries_deleteTreeName, fh_deleteTreeName]
      | some masterFh =>
        dsimp only
        split_ifs with hver
        · simp [hver, entries_localReintegrateDel, root_localReintegrateDel]
        · simp [hver, hremote, Updating.createConflict, createConflict]

/-- The variables of the first loop when `rest` are the local entries that are left: a remote entry whose
slot is not cleared has a local entry only among them. -/
structure LocalRest (rest : List Name) (u : Updating) : Prop where
  names : (u.dir.entries.map Prod.fst).Nodup
  nodup : rest.Nodup
  conflicts : ∀ n ∈ rest, n ∉ u.conflicts
  remotes : u.remoteEntries.Nodup
  hidden : u.dir.fh.localVolumeRoot = true → SHADOW_NAME ∉ u.remoteEntries
  unvisited : ∀ n ∈ u.remoteEntries, u.dir.lookup n ≠ none → n ∈ rest

section localLoop

variable {env : UpdateDirEnv} {d : LocalDir} {name : Name} {rest : List Name} {u : Updating}

theorem LocalRest.step (h : LocalRest (name :: rest) u) (hok : (updateLocalEntry env name u).1 = ZFS_OK) :
    LocalRest rest (updateLocalEntry env name u).2 := by
  have hcases := updateLocalEntry_cases env name u
  dsimp only at hcases
  generalize updateLocalEntry env name u = res at *
  obtain ⟨r, u'⟩ := res
  obtain ⟨hroot, ⟨-, hentries, hremotes, hconf⟩ | ⟨-, hentries, hconf, hremotes⟩⟩ := hcases
  · obtain ⟨hname, hrest⟩ := List.nodup_cons.mp h.nodup
    refine ⟨?_, hrest, ?_, ?_, ?_, ?_⟩
    · rw [hentries]
      exact nodup_removeName h.names
    · intro n hn
      rw [hconf]
      exact h.conflicts n (List.mem_cons_of_mem name hn)
    · rw [hremotes]
      exact h.remotes
    · rw [hroot, hremotes]
      exact h.hidden
    · intro n hn hlookup
      rw [hremotes] at hn
      rw [lookup_of_entries hentries] at hlookup
      split_ifs at hlookup with heq
      · exact absurd rfl hlookup
      · exact (List.mem_cons.mp (h.unvisited n hn hlookup)).resolve_left heq
  · obtain ⟨hname, hrest⟩ := List.nodup_cons.mp h.nodup
    have hsame (n : Name) : u'.dir.lookup n = u.dir.lookup n := by
      rw [lookup, hentries]
      rfl
    have hsub : u'.remoteEntries ⊆ u.remoteEntries := by
      rcases hremotes with heq | ⟨heq, -⟩ <;> rw [heq]
      · exact List.erase_subset
      · exact List.Subset.refl _
    refine ⟨?_, hrest, ?_, ?_, ?_, ?_⟩
    · rw [hentries]
      exact h.names
    · intro n hn
      have hold := h.conflicts n (List.mem_cons_of_mem name hn)
      have hne : n ≠ name := fun heq => hname (heq ▸ hn)
      rcases hconf with heq | heq <;> rw [heq]
      · exact hold
      · simp [hold, hne]
    · rcases hremotes with heq | ⟨heq, -⟩ <;> rw [heq]
      · exact h.remotes.erase name
      · exact h.remotes
    · intro hr hmem
      rw [hroot] at hr
      exact h.hidden hr (hsub hmem)
    · intro n hn hlookup
      rw [hsame] at hlookup
      refine (List.mem_cons.mp (h.unvisited n (hsub hn) hlookup)).resolve_left ?_
      rintro rfl
      -- the slot of the entry was cleared
      rcases hremotes with heq | ⟨-, hr | hmem | hnone | ⟨hr, hshadow⟩⟩
      · rw [heq] at hn
        exact h.remotes.not_mem_erase hn
      · exact hr hok
      · exact hmem (hsub hn)
      · exact hlookup hnone
      · exact h.hidden hr (hshadow ▸ hsub hn)

/-- The rounds of the first loop that leave the pending entries of `d`. -/
def SafeLocal (d : LocalDir) (env : UpdateDirEnv) (name : Name) (u : Updating) : Prop :=
  removesEntry env name u = true → ∀ file ∈ d.lookup name, ¬ d.Pending name file

instance (d : LocalDir) (env : UpdateDirEnv) (name : Name) (u : Updating) : Decidable (SafeLocal d env name u) :=
  inferInstanceAs (Decidable (_ → ∀ _ ∈ _, _))

theorem LocalRest.keeps_iff (h : LocalRest (name :: rest) u) (hk : u.Keeps d) :
    (updateLocalEntry env name u).2.Keeps d ↔ SafeLocal d env name u := by
  have hcases := updateLocalEntry_cases env name u
  dsimp only at hcases
  generalize updateLocalEntry env name u = res at *
  obtain ⟨r, u'⟩ := res
  obtain ⟨-, ⟨hremoves, hentries, -, hconf⟩ | ⟨hremoves, hentries, hconf, -⟩⟩ := hcases
  · constructor
    · intro hk' _ file _ hp
      rcases hk' name file hp with hlookup | hmem
      · rw [lookup_of_entries hentries, if_pos rfl] at hlookup
        cases hlookup
      · rw [hconf] at hmem
        exact h.conflicts name List.mem_cons_self hmem
    · intro hsafe n file hp
      have hne : n ≠ name := by
        rintro rfl
        exact hsafe hremoves file hp.2 hp
      rw [lookup_of_entries hentries, if_neg hne, hconf]
      exact hk n file hp
  · refine iff_of_true ?_ ?_
    · intro n file hp
      have hsame : u'.dir.lookup n = u.dir.lookup n := by
        rw [lookup, hentries]
        rfl
      rw [hsame]
      refine (hk n file hp).imp_right fun hmem => ?_
      rcases hconf with heq | heq <;> rw [heq]
      · exact hmem
      · exact List.mem_append_left _ hmem
    · intro hr
      rw [hremoves] at hr
      cases hr

end localLoop

/-! ## The second loop -/

/-- The variables of the second loop: the names that are left are free. -/
structure RemoteRest (rest : List Name) (u : Updating) : Prop where
  names : (u.dir.entries.map Prod.fst).Nodup
  nodup : rest.Nodup
  free : ∀ n ∈ rest, u.dir.lookup n = none

section remoteLoop

variable {env : UpdateDirEnv} {d : LocalDir} {name n : Name} {rest : List Name} {u : Updating}

theorem updateRemoteEntry_conflicts : (updateRemoteEntry env name u).2.conflicts = u.conflicts := by
  unfold updateRemoteEntry
  split_ifs
  · rfl
  · split
    · split_ifs <;> rfl
    · split <;> rfl

theorem updateRemoteEntry_nodup (h : (u.dir.entries.map Prod.fst).Nodup) (hfree : u.dir.lookup name = none) :
    ((updateRemoteEntry env name u).2.dir.entries.map Prod.fst).Nodup := by
  unfold updateRemoteEntry
  split_ifs
  · exact h
  · split
    · split_ifs <;> exact h
    · split
      · exact nodup_localReintegrateAdd h hfree
      · exact nodup_addName h hfree

theorem updateRemoteEntry_lookup (h : (u.dir.entries.map Prod.fst).Nodup) (hfree : u.dir.lookup name = none)
    (hn : n ≠ name) :
    (updateRemoteEntry env name u).2.dir.lookup n =
      if (movesDir env name u).isSome ∧ u.dir.lookup n = movesDir env name u then none else u.dir.lookup n := by
  unfold updateRemoteEntry movesDir
  split_ifs with hdel hmoves hmoves
  · simp at hmoves
  · rfl
  · cases hlookup : env.remoteLookupAgain name with
    | error r => simp [hlookup] at hmoves
    | ok answer =>
      obtain ⟨remote, attr⟩ := answer
      simp only [hlookup] at hmoves ⊢
      cases hmap : u.dir.fhMapping remote with
      | none => simp [hmap] at hmoves
      | some file =>
        simp only [hmap, Option.filter_some] at hmoves ⊢
        split_ifs at hmoves with hren
        · rw [lookup_localReintegrateAdd h hfree hn, if_pos ⟨hren, hmoves.2⟩]
        · simp at hmoves
  · split
    · split_ifs <;> rfl
    · rename_i remote attr hlookup
      simp only [hlookup] at hmoves
      cases hmap : u.dir.fhMapping remote with
      | none =>
        exact (lookup_addName hfree).trans (if_neg hn)
      | some file =>
        simp only [hmap, Option.filter_some] at hmoves ⊢
        rw [lookup_localReintegrateAdd h hfree hn]
        refine if_neg fun hren => hmoves ?_
        rw [if_pos hren.1]
        exact ⟨rfl, hren.2⟩

theorem RemoteRest.step (h : RemoteRest (name :: rest) u) : RemoteRest rest (updateRemoteEntry env name u).2 := by
  obtain ⟨hname, hrest⟩ := List.nodup_cons.mp h.nodup
  have hfree := h.free name List.mem_cons_self
  refine ⟨updateRemoteEntry_nodup h.names hfree, hrest, fun n hn => ?_⟩
  have hne : n ≠ name := fun heq => hname (heq ▸ hn)
  rw [updateRemoteEntry_lookup h.names hfree hne, h.free n (List.mem_cons_of_mem name hn), ite_self]

/-- The rounds of the second loop that leave the pending entries of `d`. -/
def SafeRemote (d : LocalDir) (env : UpdateDirEnv) (name : Name) (u : Updating) : Prop :=
  ∀ file ∈ movesDir env name u, ∀ e ∈ d.fh.journal, d.Pending e.name file → e.name ∈ u.conflicts

instance (d : LocalDir) (env : UpdateDirEnv) (name : Name) (u : Updating) : Decidable (SafeRemote d env name u) :=
  inferInstanceAs (Decidable (∀ _ ∈ _, _))

theorem RemoteRest.keeps_iff (h : RemoteRest (name :: rest) u) (hk : u.Keeps d) :
    (updateRemoteEntry env name u).2.Keeps d ↔ SafeRemote d env name u := by
  have hfree := h.free name List.mem_cons_self
  -- a pending file without a conflict has its name, which is not the free one
  have hold (n : Name) (file : ZfsFh) (hp : d.Pending n file) (hn : n ∉ u.conflicts) :
      u.dir.lookup n = some file ∧ n ≠ name := by
    have hlookup := (hk n file hp).resolve_right hn
    refine ⟨hlookup, ?_⟩
    rintro rfl
    rw [hfree] at hlookup
    cases hlookup
  constructor
  · intro hk' file hmoves e _ hp
    by_contra hn
    obtain ⟨hlookup, hne⟩ := hold e.name file hp hn
    rw [Option.mem_def] at hmoves
    rcases hk' e.name file hp with hlookup' | hmem
    · rw [updateRemoteEntry_lookup h.names hfree hne, hmoves, if_pos ⟨rfl, hlookup⟩] at hlookup'
      cases hlookup'
    · rw [updateRemoteEntry_conflicts] at hmem
      exact hn hmem
  · intro hsafe n file hp
    rw [updateRemoteEntry_conflicts]
    by_cases hn : n ∈ u.conflicts
    · exact Or.inr hn
    · obtain ⟨hlookup, hne⟩ := hold n file hp hn
      refine Or.inl ?_
      rw [updateRemoteEntry_lookup h.names hfree hne, if_neg, hlookup]
      rintro ⟨-, hmoves⟩
      obtain ⟨e, he, hkey⟩ := hp.1
      obtain rfl : e.name = n := congrArg Prod.snd hkey
      exact hn (hsafe file (hmoves.symm.trans hlookup) e he hp)

end remoteLoop

/-! ## The whole update -/

/-- What reading the directories gives: every name once, and the master hides its shadow. -/
structure UpdateDirEnv.Reads (env : UpdateDirEnv) (d : LocalDir) : Prop where
  names : (d.entries.map Prod.fst).Nodup
  localReaddir : env.localReaddir.Perm (d.entries.map Prod.fst)
  remoteReaddir : ∀ remotes, env.remoteReaddir = .ok remotes →
    remotes.Nodup ∧ (d.fh.localVolumeRoot = true → SHADOW_NAME ∉ remotes)

/-- The rounds of the first loop with the variables they find. -/
def localSteps (env : UpdateDirEnv) (d : LocalDir) (version : ℕ) : List (Name × Updating) :=
  if d.upToDate version then []
  else
    match env.remoteReaddir with
    | .error _ => []
    | .ok remotes => steps ZFS_OK (updateLocalEntry env) env.localReaddir ⟨d, remotes, []⟩

def remoteSteps (env : UpdateDirEnv) (d : LocalDir) (version : ℕ) : List (Name × Updating) :=
  if d.upToDate version then []
  else
    match env.remoteReaddir with
    | .error _ => []
    | .ok remotes =>
      let (r, u) := updateLocalEntries env remotes d
      if r ≠ ZFS_OK then [] else steps ZFS_OK (updateRemoteEntry env) u.remoteEntries u

theorem UpdateDirEnv.Reads.localRest {env : UpdateDirEnv} {d : LocalDir} (h : env.Reads d) {remotes : List Name}
    (hremotes : env.remoteReaddir = .ok remotes) : LocalRest env.localReaddir ⟨d, remotes, []⟩ where
  names := h.names
  nodup := h.localReaddir.nodup_iff.mpr h.names
  conflicts := by simp
  remotes := (h.remoteReaddir remotes hremotes).1
  hidden := (h.remoteReaddir remotes hremotes).2
  unvisited := by
    intro n _ hlookup
    rw [h.localReaddir.mem_iff]
    by_contra hn
    exact hlookup (lookup_eq_none.mpr hn)

theorem LocalRest.remoteRest {u : Updating} (h : LocalRest [] u) : RemoteRest u.remoteEntries u where
  names := h.names
  nodup := h.remotes
  free := by
    intro n hn
    by_contra hlookup
    cases h.unvisited n hn hlookup

def LocalDir.RoundsKeep (env : UpdateDirEnv) (d : LocalDir) (version : ℕ) : Prop :=
  (∀ x ∈ localSteps env d version, (updateLocalEntry env x.1 x.2).2.Keeps d) ∧
    ∀ x ∈ remoteSteps env d version, (updateRemoteEntry env x.1 x.2).2.Keeps d

def LocalDir.RoundsSafe (env : UpdateDirEnv) (d : LocalDir) (version : ℕ) : Prop :=
  (∀ x ∈ localSteps env d version, SafeLocal d env x.1 x.2) ∧
    ∀ x ∈ remoteSteps env d version, SafeRemote d env x.1 x.2

instance (env : UpdateDirEnv) (d : LocalDir) (version : ℕ) : Decidable (d.RoundsSafe env version) :=
  inferInstanceAs (Decidable (_ ∧ _))

theorem UpdateDirEnv.Reads.rounds_iff {env : UpdateDirEnv} {d : LocalDir} (h : env.Reads d) (version : ℕ) :
    d.RoundsKeep env version ↔ d.RoundsSafe env version := by
  unfold RoundsKeep RoundsSafe localSteps remoteSteps
  split_ifs
  · simp
  split
  · simp
  rename_i remotes hremotes
  have hstart := h.localRest hremotes
  have hkeeps : Updating.Keeps d ⟨d, remotes, []⟩ := fun name file hp => Or.inl hp.2
  have hlocal : (∀ x ∈ steps ZFS_OK (updateLocalEntry env) env.localReaddir ⟨d, remotes, []⟩,
      (updateLocalEntry env x.1 x.2).2.Keeps d) ↔ _ :=
    steps_iff (I := LocalRest) (fun _ _ _ => LocalRest.step) (fun _ _ _ => LocalRest.keeps_iff) _ _ hstart hkeeps
  rw [← hlocal]
  refine and_congr_right fun hall => ?_
  have hend : (updateLocalEntries env remotes d).1 = ZFS_OK → LocalRest [] (updateLocalEntries env remotes d).2 :=
    forEach_end (I := LocalRest) (fun _ _ _ => LocalRest.step) _ _ hstart
  have hkeeps' : (updateLocalEntries env remotes d).2.Keeps d := forEach_steps _ _ hkeeps hall
  generalize updateLocalEntries env remotes d = res at *
  obtain ⟨r, u⟩ := res
  dsimp only at *
  split_ifs with hr
  · simp
  · exact steps_iff (I := RemoteRest) (fun _ _ _ hu _ => hu.step) (fun _ _ _ => RemoteRest.keeps_iff) _ _
      (hend (not_not.mp hr)).remoteRest hkeeps'

/-! Neither `synchronize_file` nor `reintegrate_dir` changes the names in the directory. -/

theorem settle_root (dir : DirFh) (remote inc : ℕ) :
    (dir.settle remote inc).1.localVolumeRoot = dir.localVolumeRoot := by
  unfold DirFh.settle
  split_ifs <;> rfl

theorem DirFh.finish_root (env : DirEnv) (dir : DirFh) (attr : Fattr) (inc : ℕ) :
    (dir.finish env attr inc).1.localVolumeRoot = dir.localVolumeRoot := by
  unfold DirFh.finish
  split
  · rfl
  · split
    · rfl
    · cases env.lookupMetadata
      · rfl
      · exact settle_root ..

theorem reintegrateDir_root {env : DirEnv} {dir : DirFh} {attr : Fattr} {res : DirRes}
    (h : reintegrateDir env dir attr = some res) : res.dir.localVolumeRoot = dir.localVolumeRoot := by
  obtain ⟨⟨s, atEnd⟩, -, rfl⟩ := Option.map_eq_some_iff.mp h
  cases atEnd
  · rfl
  · exact DirFh.finish_root ..

theorem LocalDir.reintegrated_entries (d : LocalDir) (res : DirRes) : (d.reintegrated res).entries = d.entries := by
  have hfold : ∀ created : List CreatedFile, (created.foldl setCreated d).entries = d.entries := by
    intro created
    induction created generalizing d with
    | nil => rfl
    | cons c created ih => exact ih (d.setCreated c)
  exact hfold res.created

theorem UpdateDirEnv.Reads.beforeUpdateDir {env : UpdateEnv} {how : UpdateHow} {d d₁ : LocalDir} {attr attr₁ : Fattr}
    (h : env.updateDir.Reads d) (hb : beforeUpdateDir env how d attr = some (.ok (d₁, attr₁))) :
    env.updateDir.Reads d₁ := by
  have hsame : d₁.entries = d.entries ∧ d₁.fh.localVolumeRoot = d.fh.localVolumeRoot := by
    unfold ZFS.beforeUpdateDir at hb
    split_ifs at hb with h1 h2 h3 h4 h5
    · simp at hb
    · simp at hb
    · obtain ⟨res, hres, heq⟩ := Option.map_eq_some_iff.mp hb
      cases heq
    · obtain ⟨res, hres, heq⟩ := Option.map_eq_some_iff.mp hb
      cases heq
      exact ⟨d.reintegrated_entries res, reintegrateDir_root hres⟩
    · cases hb
      exact ⟨rfl, rfl⟩
    · simp at hb
  refine ⟨?_, ?_, ?_⟩
  · rw [hsame.1]
    exact h.names
  · rw [hsame.1]
    exact h.localReaddir
  · rw [hsame.2]
    exact h.remoteReaddir

/-- For every directory and journal and all answers, wherever `reintegrate_dir` stopped: `update_dir`
never removes an entry whose addition is pending if and only if all rounds are safe. -/
theorem update_keeps_pending_iff (env : UpdateEnv) (how : UpdateHow) (d : LocalDir) (attr : Fattr)
    (hreads : env.updateDir.Reads d) :
    (∀ d₁ attr₁, beforeUpdateDir env how d attr = some (.ok (d₁, attr₁)) →
        d₁.RoundsKeep env.updateDir attr₁.version) ↔
      ∀ d₁ attr₁, beforeUpdateDir env how d attr = some (.ok (d₁, attr₁)) →
        d₁.RoundsSafe env.updateDir attr₁.version :=
  forall₂_congr fun _ attr₁ => imp_congr_right fun hb => (hreads.beforeUpdateDir hb).rounds_iff attr₁.version

/-! ## A new file whose name is `a` -/

def ZFS_CONNECTION_CLOSED : ℤ := -154

def newFileDir : LocalDir where
  fh := ⟨2, 2, 1, [⟨.add, [97], (1, 3, 1), ⟨0, 0, 0, 0, 0⟩, 0⟩], false, []⟩
  complete := true
  shadowTree := false
  entries := [([97], ⟨1, 1, 1, 3, 1⟩)]
  file _ := ⟨.reg, none, 1, 0, true, [], true⟩
  mapping _ := none

/-- The master has another file under the name when `taken`; otherwise the connection is lost when the file
is to be created there, and is back when `update_dir` reads the directory. -/
def newFileEnv (taken : Bool) : UpdateEnv where
  synchronizeFile := ZFS_OK
  lookupSynchronized := ZFS_OK
  reintegrateDir :=
    { entry := fun _ =>
        { localLookup := some ⟨⟨1, 1, 1, 3, 1⟩, ⟨.reg, 420, 0, 0, 0, 1⟩, none, ⟨true, false, true, 1, 0, 420, 0, 0⟩⟩
          remoteLookup := if taken then .ok (⟨2, 1, 1, 9, 1⟩, ⟨.reg, 420, 0, 0, 0, 1⟩) else .error ENOENT
          createRemoteFh := .error ZFS_CONNECTION_CLOSED
          flushMetadata := true, remoteFileInfo := ZFS_OK, reintegrateAdd := ZFS_OK, deleteTreeName := .missing
          localExists := true, reintegrateDeletedDir := ZFS_OK, reintegrateDel := ZFS_OK }
      privilege := ZFS_OK
      getattr := .error ZFS_CONNECTION_CLOSED
      lookupMetadata := true
      reintegrateVer := ZFS_OK }
  lookupReintegrated := ZFS_OK
  updateDir :=
    { localReaddir := [[97]]
      remoteReaddir := .ok (if taken then [[97]] else [])
      remoteLookup := fun _ => .ok (⟨2, 1, 1, 9, 1⟩, ⟨.reg, 420, 0, 0, 0, 1⟩)
      remoteLookupAgain := fun _ => .ok (⟨2, 1, 1, 9, 1⟩, ⟨.reg, 420, 0, 0, 0, 1⟩)
      filesAreTheSame := fun _ => true
      synchronizeFile := fun _ => ZFS_OK
      remoteFileInfo := fun _ => ZFS_OK
      newFile := fun _ => ⟨1, 1, 1, 4, 1⟩ }

theorem newFile_reads (taken : Bool) : (newFileEnv taken).updateDir.Reads newFileDir where
  names := by decide
  localReaddir := List.Perm.refl _
  remoteReaddir := by
    intro remotes h
    obtain rfl := Except.ok.inj h
    cases taken <;> decide

def newFileHow : UpdateHow := ⟨false, true, true⟩

def newFileAttr : Fattr := ⟨.dir, 493, 0, 0, 0, 2⟩

/-- A file in a create-create conflict is kept. -/
theorem update_keeps_pending_taken : (newFileEnv true).updateDir.Reads newFileDir ∧
    ∀ d₁ attr₁, beforeUpdateDir (newFileEnv true) newFileHow newFileDir newFileAttr = some (.ok (d₁, attr₁)) →
      d₁.RoundsKeep (newFileEnv true).updateDir attr₁.version := by
  have hiff := update_keeps_pending_iff (newFileEnv true) newFileHow newFileDir newFileAttr (newFile_reads true)
  refine ⟨newFile_reads true, hiff.mpr ?_⟩
  intro d₁ attr₁ h
  cases h
  decide +kernel

/-- A new file is removed when the connection was lost before the master had it. -/
theorem update_removes_pending :
    ∃ env how d attr d₁ attr₁ d₂, env.updateDir.Reads d ∧
      beforeUpdateDir env how d attr = some (.ok (d₁, attr₁)) ∧ updateDir env.updateDir d₁ attr₁.version = (ZFS_OK, d₂) ∧
      ∃ name file, d₁.Pending name file ∧ d₂.lookup name = none ∧ d₂.fh.conflicts = [] :=
  ⟨newFileEnv false, newFileHow, newFileDir, newFileAttr, _, _, _, newFile_reads false, rfl, rfl, [97],
    ⟨1, 1, 1, 3, 1⟩, by decide +kernel, by decide +kernel, by decide +kernel⟩

end ZFS
