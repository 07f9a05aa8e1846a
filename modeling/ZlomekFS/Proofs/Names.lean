import ZlomekFS.Proofs.Hardlinks
import ZlomekFS.Proofs.Journal

/-! Creating, linking, renaming and removing files keeps the lists of hardlinks and the journals right, except for a
file that is renamed to another of its own names. -/

namespace ZFS.Meta
open Function List

namespace NameState

variable {s s' : NameState} {H : Link → Option LocalFh} {id : FileId} {m : Metadata} {link : Link} {hl : List Link}

/-- The journals lead from the last synchronisation to the handles `H`. -/
def Replays (s : NameState) (H : Link → Option LocalFh) : Prop :=
  ∀ link, Entries JournalEntry.file (s.synced link.parent link.name) link.name (H link) (named (s.journal link.parent) link.name)

theorem named_addJournalEntry {link' : Link} (hne : link' ≠ link) (m : Metadata) (oper : JournalOperation) :
    named ((s.addJournalEntry m link oper).journal link'.parent) link'.name = named (s.journal link'.parent) link'.name := by
  unfold addJournalEntry
  by_cases hparent : link'.parent = link.parent
  · have hname : link.name ≠ link'.name := fun heq => hne (by cases link; cases link'; simp_all)
    dsimp only
    rw [hparent, update_self, named_journalInsert]
    exact if_neg hname
  · dsimp only
    rw [update_of_ne hparent]

theorem Replays.addJournalEntry {o : Option LocalFh} {oper : JournalOperation} (h : s.Replays H)
    (hlink : Entries JournalEntry.file (s.synced link.parent link.name) link.name o
      (journalInsert (named (s.journal link.parent) link.name) (m.journalEntry link.name oper))) :
    (s.addJournalEntry m link oper).Replays (update H link o) := by
  intro link'
  by_cases hne : link' = link
  · subst hne
    have hself : named ((s.addJournalEntry m link' oper).journal link'.parent) link'.name =
        journalInsert (named (s.journal link'.parent) link'.name) (m.journalEntry link'.name oper) := by
      unfold NameState.addJournalEntry
      dsimp only
      rw [update_self, named_journalInsert]
      exact if_pos rfl
    rw [update_self, hself]
    exact hlink
  · rw [update_of_ne hne, named_addJournalEntry hne]
    exact h link'

theorem Replays.add (h : s.Replays H) (hnone : H link = none) (m : Metadata) :
    (s.addJournalEntry m link .add).Replays (update H link (some m.localFh)) := by
  have hentries := h link
  rw [hnone] at hentries
  exact h.addJournalEntry (hentries.add (e := m.journalEntry link.name .add) rfl)

theorem Replays.del (h : s.Replays H) (hsome : H link ≠ none) (m : Metadata) :
    (s.addJournalEntry m link .del).Replays (update H link none) := by
  obtain ⟨file, hfile⟩ := Option.ne_none_iff_exists'.mp hsome
  have hentries := h link
  rw [hfile] at hentries
  exact h.addJournalEntry (hentries.del rfl)

/-! ## The names on the disk -/

theorem mem_entries_unique (t : Tree) {id id' : FileId} (h : (link, id) ∈ t.entries) (h' : (link, id') ∈ t.entries) : id = id' :=
  (Prod.mk.inj (inj_on_of_nodup_map t.nodup h h' rfl)).2

theorem lstat_eq_some (t : Tree) : t.lstat link = some id ↔ (link, id) ∈ t.entries := by
  constructor
  · intro h
    obtain ⟨A, B, heq, -⟩ := lookup_eq_some_iff.mp h
    rw [heq]
    simp
  · intro h
    cases hl : t.lstat link with
    | none =>
      have := lookup_eq_none_iff.mp hl (link, id) h
      simp at this
    | some id' =>
      obtain ⟨A, B, heq, -⟩ := lookup_eq_some_iff.mp hl
      have hmem : (link, id') ∈ t.entries := by rw [heq]; simp
      rw [mem_entries_unique t hmem h]

theorem lstat_congr {t t' : Tree} (h : ∀ id, (link, id) ∈ t'.entries ↔ (link, id) ∈ t.entries) : t'.lstat link = t.lstat link := by
  ext id
  rw [lstat_eq_some, lstat_eq_some, h]

theorem mem_add {t : Tree} {link' : Link} {id' : FileId} (hfree : t.Free link) :
    (link', id') ∈ (t.add link id hfree).entries ↔ link' = link ∧ id' = id ∨ (link', id') ∈ t.entries := by
  simp [Tree.add]

theorem mem_remove {t : Tree} {link' : Link} {id' : FileId} :
    (link', id') ∈ (t.remove link).entries ↔ (link', id') ∈ t.entries ∧ link' ≠ link := by
  simp [Tree.remove]

def handle (s : NameState) (link : Link) : Option LocalFh :=
  (s.tree.lstat link).bind fun id => (s.vol.record id).map Metadata.localFh

theorem handle_of_mem (hlink : (link, id) ∈ s.tree.entries) (hm : s.vol.record id = some m) :
    s.handle link = some m.localFh := by
  rw [handle, lstat_eq_some .. |>.mpr hlink, Option.bind_some, hm]
  rfl

theorem handle_of_notMem (hlink : ∀ id, (link, id) ∉ s.tree.entries) : s.handle link = none := by
  have hnone : s.tree.lstat link = none := by
    rw [Option.eq_none_iff_forall_ne_some]
    exact fun id h => hlink id (lstat_eq_some .. |>.mp h)
  rw [handle, hnone]
  rfl

/-! ## The files -/

structure Named (s : NameState) (id : FileId) (hl : List Link) (m : Metadata) : Prop where
  kept : s.vol.Kept id (s.ftype id) hl m
  nodup : hl.Nodup
  mem : ∀ link, link ∈ hl ↔ (link, id) ∈ s.tree.entries

structure Files (s : NameState) : Prop where
  live : ∀ id, s.tree.Exists id → ∃ hl m, s.Named id hl m
  dead : ∀ id, ¬ s.tree.Exists id → id ≠ s.root → s.vol.Gone id
  root : ¬ s.tree.Exists s.root ∧ s.vol.hardlinks s.root = none ∧ ∀ m, s.vol.record s.root = some m → m.link = noLink

structure Change (s s' : NameState) (id : FileId) : Prop where
  root : s'.root = s.root
  touches : s.vol.Touches s'.vol id
  ftype : ∀ id', id' ≠ id → s'.ftype id' = s.ftype id'
  mem : ∀ link id', id' ≠ id → ((link, id') ∈ s'.tree.entries ↔ (link, id') ∈ s.tree.entries)

theorem Change.exists_iff (h : s.Change s' id) {id' : FileId} (hid : id' ≠ id) : s'.tree.Exists id' ↔ s.tree.Exists id' :=
  exists_congr fun link => h.mem link id' hid

theorem Change.named (h : s.Change s' id) {id' : FileId} (hid : id' ≠ id) (hn : s.Named id' hl m) : s'.Named id' hl m where
  kept := by
    rw [h.ftype id' hid]
    exact hn.kept.touches h.touches hid
  nodup := hn.nodup
  mem link := (hn.mem link).trans (h.mem link id' hid).symm

theorem Files.change (h : s.Files) (hc : s.Change s' id) (hroot : id ≠ s.root)
    (hlive : s'.tree.Exists id → ∃ hl m, s'.Named id hl m) (hdead : ¬ s'.tree.Exists id → s'.vol.Gone id) : s'.Files where
  live id' hex := by
    by_cases hid : id' = id
    · subst hid
      exact hlive hex
    · obtain ⟨hl, m, hn⟩ := h.live id' ((hc.exists_iff hid).mp hex)
      exact ⟨hl, m, hc.named hid hn⟩
  dead id' hex hr := by
    by_cases hid : id' = id
    · subst hid
      exact hdead hex
    · refine (h.dead id' (fun hex' => hex ((hc.exists_iff hid).mpr hex')) ?_).touches hc.touches hid
      rwa [← hc.root]
  root := by
    obtain ⟨hex, hfile, hrecord⟩ := h.root
    rw [hc.root, hc.touches.hardlinks _ hroot.symm, hc.touches.record _ hroot.symm]
    exact ⟨fun hex' => hex ((hc.exists_iff hroot.symm).mp hex'), hfile, hrecord⟩

/-- The handle of a name stays if the file that keeps the name keeps its handle. -/
theorem Change.handle (hc : s.Change s' id) (hlink : (link, id) ∈ s'.tree.entries ↔ (link, id) ∈ s.tree.entries)
    (hrecord : (link, id) ∈ s.tree.entries → (s'.vol.record id).map Metadata.localFh = (s.vol.record id).map Metadata.localFh) :
    s'.handle link = s.handle link := by
  have hstat : s'.tree.lstat link = s.tree.lstat link := by
    refine lstat_congr fun id' => ?_
    by_cases hid : id' = id
    · rw [hid, hlink]
    · exact hc.mem link id' hid
  unfold NameState.handle
  rw [hstat]
  refine Option.bind_congr fun id' hid' => ?_
  by_cases hid : id' = id
  · subst hid
    exact hrecord (lstat_eq_some .. |>.mp hid')
  · rw [hc.touches.record id' hid]

theorem Change.handle_update (hc : s.Change s' id) {o : Option LocalFh} (ho : s'.handle link = o)
    (hmem : ∀ link', link' ≠ link → ((link', id) ∈ s'.tree.entries ↔ (link', id) ∈ s.tree.entries))
    (hrecord : ∀ link', link' ≠ link → (link', id) ∈ s.tree.entries →
      (s'.vol.record id).map Metadata.localFh = (s.vol.record id).map Metadata.localFh) :
    s'.handle = update s.handle link o := by
  funext link'
  by_cases hlink : link' = link
  · rw [hlink, update_self, ho]
  · rw [update_of_ne hlink]
    exact hc.handle (hmem link' hlink) (hrecord link' hlink)

/-! ## The operations -/

theorem Files.addName {m' : Metadata} {hl' : List Link} (h : s.Files) (hc : s.Change s' id) (hroot : id ≠ s.root)
    (hmem : ∀ link', (link', id) ∈ s'.tree.entries ↔ link' = link ∨ (link', id) ∈ s.tree.entries)
    (hn : s'.Named id hl' m') (hm : s.tree.Exists id → ∃ m, s.vol.record id = some m ∧ m'.localFh = m.localFh) :
    s'.Files ∧ s'.handle = update s.handle link (some m'.localFh) := by
  have hlink : (link, id) ∈ s'.tree.entries := (hmem link).mpr (.inl rfl)
  refine ⟨h.change hc hroot (fun _ => ⟨hl', m', hn⟩) fun hex => absurd ⟨link, hlink⟩ hex, ?_⟩
  refine hc.handle_update (handle_of_mem hlink hn.kept.record) (fun link' hne => ?_) fun link' _ hlink' => ?_
  · rw [hmem]
    exact or_iff_right hne
  · obtain ⟨m, hrecord, hfh⟩ := hm ⟨link', hlink'⟩
    rw [hrecord, hn.kept.record, Option.map_some, Option.map_some, hfh]

theorem Files.addLink (h : s.Files) {st : Status} (hn : s.Named id hl m) (hst : st.type = s.ftype id) (hex : s.tree.Exists id)
    (hfree : s.tree.Free link) {s' : NameState}
    (hs' : s' = { s with vol := (s.vol.metadataHardlinkInsert id st link).1, tree := s.tree.add link id hfree }) :
    s'.Files ∧ s'.handle = update s.handle link (some (s.vol.metadataHardlinkInsert id st link).2.localFh) := by
  subst hs'
  have hlink : link ∉ hl := fun hmem => hfree.2 (mem_map.mpr ⟨(link, id), (hn.mem link).mp hmem, rfl⟩)
  obtain ⟨hm, ht, m', hk, hfh⟩ := (hst ▸ hn.kept).metadataHardlinkInsert hlink hfree.1
  rw [hm, ← hfh]
  refine h.addName ⟨rfl, ht, fun _ _ => rfl, fun link' id' hid => ?_⟩ (fun hroot => h.root.1 (hroot ▸ hex)) (fun link' => ?_)
    ⟨hst ▸ hk, ?_, fun link' => ?_⟩ fun _ => ⟨m, hn.kept.record, hfh⟩
  · simp [mem_add, hid]
  · simp [mem_add]
  · exact nodup_append.mpr ⟨hn.nodup, nodup_singleton _, fun a ha b hb => by
      rw [mem_singleton.mp hb]
      exact fun hab => hlink (hab ▸ ha)⟩
  · rw [mem_append, mem_singleton, hn.mem, mem_add, or_comm]
    simp

theorem Files.create (h : s.Files) {st : Status} (hex : ¬ s.tree.Exists id) (hroot : id ≠ s.root) (hst : st.type ≠ .bad)
    (hfree : s.tree.Free link) :
    ∃ vol m, s.vol.lookupMetadata id st true = (vol, some m) ∧ m.masterFh = undefinedFh ∧
      ∀ s' : NameState, s' = { s with
          vol := (vol.metadataHardlinkInsert id st link).1
          tree := s.tree.add link id hfree
          ftype := update s.ftype id st.type } →
        s'.Files ∧ s'.handle = update s.handle link (some m.localFh) := by
  obtain ⟨vol, m, hlookup, hmaster, ht, hk⟩ := (h.dead id hex hroot).lookupMetadata hst
  refine ⟨vol, m, hlookup, hmaster, fun s' hs' => ?_⟩
  subst hs'
  obtain ⟨-, ht', m', hk', hfh⟩ := hk.metadataHardlinkInsert (not_mem_nil (a := link)) hfree.1
  rw [← hfh]
  refine h.addName ⟨rfl, ht.trans ht', fun id' hid => update_of_ne hid _ _, fun link' id' hid => ?_⟩ hroot (fun link' => ?_)
    ⟨?_, nodup_singleton link, fun link' => ?_⟩ fun hex' => absurd hex' hex
  · simp [mem_add, hid]
  · simp [mem_add]
  · dsimp only
    rw [update_self]
    exact hk'
  · have hnot : (link', id) ∉ s.tree.entries := fun hmem => hex ⟨link', hmem⟩
    simp [mem_add, hnot]

theorem Files.unlink (h : s.Files) (hn : s.Named id hl m) (hlink : (link, id) ∈ s.tree.entries) {s' : NameState}
    (hs' : s' = { s with vol := s.vol.deleteMetadata m id (some link), tree := s.tree.remove link }) :
    s'.Files ∧ s'.handle = update s.handle link none ∧ s.Change s' id := by
  subst hs'
  obtain ⟨ht, hrest, hlast⟩ := hn.kept.deleteMetadata ((hn.mem link).mpr hlink)
  have hmem : ∀ link', link' ∈ hl.erase link ↔ (link', id) ∈ (s.tree.remove link).entries := by
    intro link'
    rw [hn.nodup.mem_erase_iff, hn.mem, mem_remove, and_comm]
  have hc : s.Change { s with vol := s.vol.deleteMetadata m id (some link), tree := s.tree.remove link } id := by
    refine ⟨rfl, ht, fun _ _ => rfl, fun link' id' hid => ?_⟩
    rw [mem_remove]
    refine and_iff_left_of_imp fun hmem' heq => hid ?_
    exact mem_entries_unique s.tree (heq ▸ hmem') hlink
  refine ⟨h.change hc (fun hroot => h.root.1 (hroot ▸ ⟨link, hlink⟩)) ?_ ?_, ?_, hc⟩
  · rintro ⟨link', hlink'⟩
    obtain ⟨m', hk, -⟩ := hrest (ne_nil_of_mem ((hmem link').mpr hlink'))
    exact ⟨_, m', hk, hn.nodup.erase link, hmem⟩
  · intro hex
    refine hlast (eq_nil_iff_forall_not_mem.mpr fun link' hlink' => hex ⟨link', (hmem link').mp hlink'⟩)
  · refine hc.handle_update (handle_of_notMem fun id' hid' => (mem_remove.mp hid').2 rfl) (fun link' hne => ?_)
      fun link' hne hlink' => ?_
    · rw [mem_remove]
      exact and_iff_left hne
    · obtain ⟨m', hk, hfh⟩ := hrest (ne_nil_of_mem ((hmem link').mpr (mem_remove.mpr ⟨hlink', hne⟩)))
      rw [hn.kept.record, hk.record, Option.map_some, Option.map_some, hfh]

theorem Files.replaceName {st : Status} {old new : Link} {t : Tree} (h : s.Files) (hn : s.Named id hl m) (hst : st.type = s.ftype id)
    (hold : (old, id) ∈ s.tree.entries) (hnew : ∀ id', (new, id') ∉ s.tree.entries) (hname : new.name ≠ [])
    (ht : ∀ link' id', (link', id') ∈ t.entries ↔ link' = new ∧ id' = id ∨ (link', id') ∈ s.tree.entries ∧ link' ≠ old)
    {s' : NameState} (hs' : s' = { s with vol := (s.vol.metadataHardlinkReplace id st old new false).1, tree := t }) :
    s'.Files ∧ s'.handle =
      update (update s.handle old none) new (some (s.vol.metadataHardlinkReplace id st old new false).2.localFh) := by
  subst hs'
  have hne : new ≠ old := fun heq => hnew id (heq ▸ hold)
  have hnot : new ∉ hl := fun hmem => hnew id ((hn.mem new).mp hmem)
  obtain ⟨hm, htouch, m', hk, hfh⟩ := (hst ▸ hn.kept).metadataHardlinkReplace ((hn.mem old).mpr hold) hnot hname false
  have hc : s.Change { s with vol := (s.vol.metadataHardlinkReplace id st old new false).1, tree := t } id := by
    refine ⟨rfl, htouch, fun _ _ => rfl, fun link' id' hid => ?_⟩
    rw [ht, or_iff_right fun hand => hid hand.2]
    exact and_iff_left_of_imp fun hmem heq => hid (mem_entries_unique s.tree (heq ▸ hmem) hold)
  have hlink : (new, id) ∈ t.entries := (ht new id).mpr (.inl ⟨rfl, rfl⟩)
  refine ⟨h.change hc (fun hroot => h.root.1 (hroot ▸ ⟨old, hold⟩)) (fun _ => ⟨_, m', hst ▸ hk, ?_, fun link' => ?_⟩)
    fun hex => absurd ⟨new, hlink⟩ hex, funext fun link' => ?_⟩
  · refine nodup_append.mpr ⟨hn.nodup.erase old, nodup_singleton _, fun a ha b hb => ?_⟩
    rw [mem_singleton.mp hb]
    exact fun hab => hnot (hab ▸ mem_of_mem_erase ha)
  · rw [mem_append, mem_singleton, hn.nodup.mem_erase_iff, hn.mem, ht]
    tauto
  · by_cases hlink' : link' = new
    · subst hlink'
      rw [update_self, hm, ← hfh]
      exact handle_of_mem hlink hk.record
    · rw [update_of_ne hlink']
      by_cases hold' : link' = old
      · subst hold'
        rw [update_self]
        refine handle_of_notMem fun id' hid' => ?_
        rcases (ht link' id').mp hid' with hand | hand
        · exact hlink' hand.1
        · exact hand.2 rfl
      · rw [update_of_ne hold']
        refine hc.handle ?_ fun _ => ?_
        · rw [ht]
          tauto
        · rw [hn.kept.record, hk.record, Option.map_some, Option.map_some, hfh]

/-! ## The invariant -/

structure Inv (s : NameState) : Prop where
  files : s.Files
  replays : s.Replays s.handle

theorem inv_of_synced (h : s.Synced) : s.Inv where
  files := by
    refine ⟨fun id hex => ?_, fun id hex hroot => ?_, h.root, (h.dead s.root h.root).1, fun m hm => ?_⟩
    · obtain ⟨m, hl, hrecord, htype, hbad, hstored, hnodup, hmem⟩ := h.live id hex
      refine ⟨hl, m, ⟨hrecord, h.key id m hrecord, htype, htype ▸ hbad, hstored, fun l hl => ?_⟩, hnodup, hmem⟩
      exact s.tree.named _ ((hmem l).mp hl)
    · obtain ⟨hfile, hrecord⟩ := h.dead id hex
      exact ⟨hfile, fun m hm => ⟨h.key id m hm, (hrecord m hm).1, (hrecord m hm).2 hroot⟩⟩
    · exact ((h.dead s.root h.root).2 m hm).1
  replays link := by
    obtain ⟨hnil, hsynced⟩ := h.journal link.parent
    rw [hnil, hsynced]
    exact .untouched

theorem Inv.consistent (h : s.Inv) : s.Consistent where
  links id link := by
    by_cases hex : s.tree.Exists id
    · obtain ⟨hl, m, hn⟩ := h.files.live id hex
      rw [hn.kept.recorded, hn.mem]
    · have hnil : s.vol.recorded id = [] := by
        by_cases hroot : id = s.root
        · exact hroot ▸ Volume.recorded_eq_nil h.files.root.2.1 h.files.root.2.2
        · have hgone := h.files.dead id hex hroot
          exact Volume.recorded_eq_nil hgone.hardlinks fun m hm => (hgone.record m hm).2.1
      rw [hnil]
      exact iff_of_false not_mem_nil fun hmem => hex ⟨link, hmem⟩
  journal dir _ := funext fun name => (h.replays ⟨dir, name⟩).replay

theorem Files.addJournalEntry (h : s.Files) (m : Metadata) (link : Link) (oper : JournalOperation) :
    (s.addJournalEntry m link oper).Files where
  live id hex := by
    obtain ⟨hl, m', hn⟩ := h.live id hex
    exact ⟨hl, m', hn.kept, hn.nodup, hn.mem⟩
  dead := h.dead
  root := h.root

theorem Files.inv_add (hf : s'.Files) (hr : s'.Replays H) (hnone : H link = none)
    (hh : s'.handle = update H link (some m.localFh)) : (s'.addJournalEntry m link .add).Inv := by
  refine ⟨hf.addJournalEntry m link .add, ?_⟩
  change (s'.addJournalEntry m link .add).Replays s'.handle
  rw [hh]
  exact hr.add hnone m

theorem Files.inv_del (hf : s'.Files) (hr : s'.Replays H) (hsome : H link ≠ none) (hh : s'.handle = update H link none)
    (m : Metadata) : (s'.addJournalEntry m link .del).Inv := by
  refine ⟨hf.addJournalEntry m link .del, ?_⟩
  change (s'.addJournalEntry m link .del).Replays s'.handle
  rw [hh]
  exact hr.del hsome m

theorem handle_of_free (hfree : s.tree.Free link) : s.handle link = none :=
  handle_of_notMem fun id hid => hfree.2 (mem_map.mpr ⟨(link, id), hid, rfl⟩)

theorem Inv.exists_of_mem (h : s.Inv) (hlink : (link, id) ∈ s.tree.entries) :
    ∃ hl m, s.Named id hl m ∧ s.handle link = some m.localFh := by
  obtain ⟨hl, m, hn⟩ := h.files.live id ⟨link, hlink⟩
  exact ⟨hl, m, hn, handle_of_mem hlink hn.kept.record⟩

theorem Inv.create {st : Status} (h : s.Inv) (hs : s.step (.create id st link) = some s') : s'.Inv := by
  simp only [step] at hs
  split_ifs at hs with hc
  have hfree := hc.2.2.2.2
  obtain ⟨vol, m, hlookup, hmaster, hnext⟩ := h.files.create hc.1.1 hc.1.2 hc.2.1 hfree
  rw [hlookup] at hs
  simp only [hmaster, if_true, Option.some.injEq] at hs
  obtain ⟨hf, hh⟩ := hnext _ rfl
  rw [← hs]
  exact hf.inv_add h.replays (handle_of_free hfree) hh

theorem Inv.addLink {st : Status} (h : s.Inv) (hs : s.step (.link id st link) = some s') : s'.Inv := by
  simp only [step] at hs
  split_ifs at hs with hc
  have hfree := hc.2.2.2.2
  obtain ⟨hl, m, hn⟩ := h.files.live id hc.1
  obtain ⟨hf, hh⟩ := h.files.addLink hn hc.2.1 hc.1 hfree rfl
  rw [← Option.some.inj hs]
  exact hf.inv_add h.replays (handle_of_free hfree) hh

theorem Inv.unlink {st : Status} (h : s.Inv) (hs : s.step (.unlink st link) = some s') : s'.Inv := by
  simp only [step] at hs
  split at hs
  · cases hs
  · rename_i id hstat
    split_ifs at hs with hc
    have hlink := (lstat_eq_some s.tree).mp hstat
    obtain ⟨hl, m, hn, hsome⟩ := h.exists_of_mem hlink
    have hk : s.vol.Kept id st.type hl m := hc.1 ▸ hn.kept
    rw [hk.lookupMetadata true] at hs
    obtain ⟨hf, hh, -⟩ := h.files.unlink hn hlink rfl
    rw [← Option.some.inj hs]
    exact hf.inv_del h.replays (by rw [hsome]; simp) hh m

theorem mem_renamed {old new link' : Link} {id' : FileId} (hname : new.name ≠ []) (hne : s.tree.lstat new ≠ some id) :
    (link', id') ∈ (s.renamed old new id).entries ↔
      link' = new ∧ id' = id ∨ (link', id') ∈ (s.tree.remove new).entries ∧ link' ≠ old := by
  have hfree : ((s.tree.remove old).remove new).Free new := by
    refine ⟨hname, fun hmem => ?_⟩
    obtain ⟨⟨link, id⟩, he, rfl⟩ := mem_map.mp hmem
    exact (mem_remove.mp he).2 rfl
  unfold renamed
  rw [if_neg hne]
  dsimp only
  rw [dif_pos hfree, mem_add, mem_remove, mem_remove, mem_remove]
  tauto

theorem Inv.overwrite {stOld : Status} {new : Link} {other : FileId} (h : s.Inv) (hnew : (new, other) ∈ s.tree.entries)
    (hst : stOld.type = s.ftype other) :
    ∃ m, s.vol.lookupMetadata other stOld true = (s.vol, some m) ∧ ∀ s1 : NameState,
      s1 = { s with vol := s.vol.deleteMetadata m other (some new), tree := s.tree.remove new } →
      s1.Files ∧ s1.handle = update s.handle new none ∧ s.Change s1 other := by
  obtain ⟨hl, m, hn, -⟩ := h.exists_of_mem hnew
  have hk : s.vol.Kept other stOld.type hl m := hst ▸ hn.kept
  exact ⟨m, hk.lookupMetadata true, fun s1 hs1 => h.files.unlink hn hnew hs1⟩

theorem Inv.rename {stNew stOld : Status} {old new : Link} (h : s.Inv) (hsafe : s.tree.lstat new ≠ s.tree.lstat old)
    (hs : s.step (.rename stNew stOld old new) = some s') : s'.Inv := by
  simp only [step] at hs
  split at hs
  · cases hs
  · rename_i id hstat
    split_ifs at hs with hc
    obtain ⟨hst, -, hname, -, hother⟩ := hc
    rw [hstat] at hsafe
    have hold := (lstat_eq_some s.tree).mp hstat
    obtain ⟨hl, m, hn, hsome⟩ := h.exists_of_mem hold
    have hne : new ≠ old := fun heq => hsafe (heq ▸ hstat)
    rw [← Option.some.inj hs]
    unfold localRenameBase renameJournal
    have hdel : s.handle old ≠ none := by rw [hsome]; simp
    cases hnew : s.tree.lstat new with
    | none =>
      have hfree : ∀ id', (new, id') ∉ s.tree.entries := fun id' hmem => by
        rw [(lstat_eq_some s.tree).mpr hmem] at hnew
        cases hnew
      have htree : ∀ link' id', (link', id') ∈ (s.renamed old new id).entries ↔
          link' = new ∧ id' = id ∨ (link', id') ∈ s.tree.entries ∧ link' ≠ old := by
        intro link' id'
        have hkeep : (link', id') ∈ s.tree.entries → link' ≠ new := fun hmem heq => hfree id' (heq ▸ hmem)
        rw [mem_renamed hname hsafe, mem_remove, and_iff_left_of_imp hkeep]
      obtain ⟨hf, hh⟩ := h.files.replaceName hn hst hold hfree hname htree rfl
      refine (hf.addJournalEntry _ old .del).inv_add (Replays.del h.replays hdel _) ?_ hh
      rw [update_of_ne hne]
      exact handle_of_notMem hfree
    | some other =>
      have hmem := (lstat_eq_some s.tree).mp hnew
      have hid : id ≠ other := fun heq => hsafe (heq ▸ hnew)
      obtain ⟨m', hlookup, hnext⟩ := h.overwrite hmem (hother other hnew).1
      obtain ⟨hf1, hh1, hc⟩ := hnext _ rfl
      obtain ⟨hf, hh⟩ := hf1.replaceName (hc.named hid hn) (hst.trans (hc.ftype id hid).symm) (mem_remove.mpr ⟨hold, hne.symm⟩)
        (fun id' hid' => (mem_remove.mp hid').2 rfl) hname (fun link' id' => mem_renamed hname hsafe) rfl
      dsimp only
      rw [hlookup]
      refine ((hf.addJournalEntry _ old .del).addJournalEntry m' new .del).inv_add
        (Replays.del (Replays.del h.replays hdel _) ?_ m') ?_ ?_
      · obtain ⟨-, m'', -, hsome'⟩ := h.exists_of_mem hmem
        rw [update_of_ne hne, hsome']
        simp
      · exact update_self ..
      · rw [hh1, update_comm hne] at hh
        exact hh

/-! ## Runs -/

theorem Inv.step {e : NameEvent} (h : s.Inv) (hsafe : s.RenameSafe e) (hs : s.step e = some s') : s'.Inv := by
  cases e with
  | create id st link => exact h.create hs
  | link id st link => exact h.addLink hs
  | unlink st link => exact h.unlink hs
  | rename stNew stOld old new => exact h.rename hsafe hs

/-- After a synchronisation the lists of hardlinks are the names on the disk and the journals lead to the names with
their handles, as long as no file is renamed to a name that it has already. -/
theorem names_consistent {s : NameState} (h : s.Synced) (es : List NameEvent)
    (hsafe : ∀ x ∈ Runs.taken NameState.step s es, x.1.RenameSafe x.2) :
    ∀ s' ∈ Runs.visited NameState.step s es, s'.Consistent := by
  intro s' hs'
  exact (Runs.visited_inv (fun _ _ _ h hsafe hs => Inv.step h hsafe hs) es s (inv_of_synced h) hsafe s' hs').consistent

theorem synced_empty : empty.Synced where
  key _ _ h := by cases h
  live _ := by
    rintro ⟨_, h⟩
    cases h
  dead _ _ := ⟨rfl, fun _ h => by cases h⟩
  root := by
    rintro ⟨_, h⟩
    cases h
  journal _ := ⟨rfl, rfl⟩

/-- The names `a` and `b` in the root, and the mode of a file. -/
def nameA : Link := ⟨(1, 2), [97]⟩

def nameB : Link := ⟨(1, 2), [98]⟩

def newFile : Status := ⟨0, 0o644, .reg, 0, 0⟩

/-- A file is created as `a`, linked as `b` and removed as `a`; another one is moved over it. -/
theorem names_consistent_moved :
    (Runs.run NameState.step empty [.create (1, 3) newFile nameA, .link (1, 3) newFile nameB, .unlink newFile nameA,
        .create (1, 4) newFile nameA, .rename newFile newFile nameA nameB]).isSome = true ∧
      ∀ s' ∈ Runs.visited NameState.step empty [.create (1, 3) newFile nameA, .link (1, 3) newFile nameB,
        .unlink newFile nameA, .create (1, 4) newFile nameA, .rename newFile newFile nameA nameB], s'.Consistent :=
  ⟨by decide +kernel, names_consistent synced_empty _ (by decide +kernel)⟩

/-- A file with the names `a` and `b` is renamed from `a` to `b`, which leaves both names on the disk. The list of
hardlinks and the journal lose `a`. -/
theorem name_lost :
    ∃ s ∈ Runs.visited NameState.step empty [.create (1, 3) newFile nameA, .link (1, 3) newFile nameB,
        .rename newFile newFile nameA nameB],
      (nameA, (1, 3)) ∈ s.tree.entries ∧ s.vol.recorded (1, 3) = [nameB] ∧
        (s.journal (1, 2)).foldl applyHandle (s.synced (1, 2)) nameA.name = none ∧
        s.names (1, 2) nameA.name = some (1, 3, 1) ∧ ¬ s.Consistent := by
  obtain ⟨s, hrun, htree, hlist, hjournal, hnames⟩ : ∃ s, Runs.run NameState.step empty [.create (1, 3) newFile nameA,
      .link (1, 3) newFile nameB, .rename newFile newFile nameA nameB] = some s ∧ (nameA, (1, 3)) ∈ s.tree.entries ∧
      s.vol.recorded (1, 3) = [nameB] ∧ (s.journal (1, 2)).foldl applyHandle (s.synced (1, 2)) nameA.name = none ∧
      s.names (1, 2) nameA.name = some (1, 3, 1) :=
    ⟨_, rfl, by decide +kernel, by decide +kernel, by decide +kernel, by decide +kernel⟩
  refine ⟨s, Runs.mem_visited_of_run _ hrun, htree, hlist, hjournal, hnames, fun h => ?_⟩
  have hmem := (h.links (1, 3) nameA).mpr htree
  rw [hlist] at hmem
  exact absurd hmem (by decide)

end NameState

end ZFS.Meta
