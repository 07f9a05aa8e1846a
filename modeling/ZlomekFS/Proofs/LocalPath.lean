import ZlomekFS.Proofs.Metadata
import ZlomekFS.Spec.LocalPath

/-! `get_local_path_from_metadata` is right on all disks just where no file is its own ancestor in the metadata and
the root of the volume is the only known file without a name: it follows the parents without remembering where it has
been, and takes any file without a name for the root. -/

namespace ZFS.Meta
open Function Resolving

namespace Volume

variable {v v' : Volume} {id : FileId} {m : Metadata} {l left : List Link}

/-! ## Files as nodes -/

def data (v : Volume) (id : FileId) : Option Metadata × Option (List Link) := (v.record id, v.hardlinks id)

def view (v : Volume) (id : FileId) : Node Link :=
  match v.record id with
  | none => .missing
  | some m =>
    if m.type = .bad then .missing else if m.link = noLink ∧ v.linksOf id = [] then .top else .links (v.linksOf id)

def Keyed (v : Volume) : Prop := ∀ id m, v.record id = some m → m.id = id

theorem read_none (h : v.record id = none) : v.readHardlinks id badStatus = (v, none, []) := by
  simp [readHardlinks, lookupMetadata, h]

theorem read_bad (h : v.record id = some m) (hbad : m.type = .bad) :
    v.readHardlinks id badStatus = (v, some (badStatus.fill m), []) := by
  simp [readHardlinks, lookupMetadata, h, hbad, Status.fill, badStatus]

theorem read_some (h : v.record id = some m) (hbad : m.type ≠ .bad) :
    v.readHardlinks id badStatus =
      (v, some m, if m.link.name ≠ [] ∨ m.link.parent = (0, 0) then [m.link] else (v.hardlinks id).getD []) := by
  simp only [readHardlinks, lookupMetadata, h, hbad, if_false, badStatus, ne_eq, not_true_eq_false, and_false]
  split_ifs <;> rfl

theorem linksOf_some (h : v.record id = some m) (hbad : m.type ≠ .bad) :
    v.linksOf id = if m.link.name ≠ [] ∨ m.link.parent = (0, 0) then [m.link] else (v.hardlinks id).getD [] := by
  rw [linksOf, read_some h hbad]

theorem view_list (v : Volume) (id : FileId) : (v.view id).list = v.linksOf id := by
  unfold view
  cases h : v.record id with
  | none => simp [Node.list, linksOf, read_none h]
  | some m =>
    by_cases hbad : m.type = .bad
    · simp [Node.list, linksOf, read_bad h hbad, hbad]
    · simp only [if_neg hbad]
      split_ifs with htop
      · exact htop.2.symm
      · rfl

theorem view_congr (h : v.data id = v'.data id) : v.view id = v'.view id := by
  obtain ⟨hrecord, hhardlinks⟩ := Prod.mk.inj h
  have hlinks : v.linksOf id = v'.linksOf id := by
    cases hr : v.record id with
    | none => rw [linksOf, read_none hr, linksOf, read_none (hrecord ▸ hr)]
    | some m =>
      by_cases hbad : m.type = .bad
      · rw [linksOf, read_bad hr hbad, linksOf, read_bad (hrecord ▸ hr) hbad]
      · rw [linksOf_some hr hbad, linksOf_some (hrecord ▸ hr) hbad, hhardlinks]
  rw [view, view, hrecord, hlinks]

theorem view_bad (h : v.record id = some m) (hbad : m.type = .bad) : v.view id = .missing := by
  rw [view, h]
  exact if_pos hbad

theorem view_links (h : v.record id = some m) (hbad : m.type ≠ .bad) (hl : v.linksOf id ≠ []) :
    v.view id = .links (v.linksOf id) := by
  rw [view, h]
  simp only [hbad, hl, if_false, and_false]

theorem unlinked_iff : v.Unlinked id ↔ v.view id = .top := by
  unfold Unlinked view
  cases v.record id with
  | none => simp
  | some m => by_cases hbad : m.type = .bad <;> simp [hbad]

theorem of_view_links (h : v.view id = .links l) : ∃ m, v.record id = some m ∧ m.type ≠ .bad ∧ l = v.linksOf id := by
  have hlist := v.view_list id
  rw [h] at hlist
  unfold view at h
  cases hr : v.record id with
  | none => rw [hr] at h; cases h
  | some m =>
    rw [hr] at h
    refine ⟨m, rfl, fun hbad => ?_, hlist⟩
    simp only [hbad, if_true] at h
    cases h

def pathStore : Store Volume FileId Link where
  node := view
  finish v fh v' left :=
    match v.record fh with
    | none => v'
    | some m =>
      let v' := if left = [] then v'.deleteMetadata m fh none else v'
      if left ≠ v.linksOf fh then v'.writeHardlinks fh true m left else v'

theorem getLocalPath_eq_search (disk : Disk) (n : ℕ) (v : Volume) (fh : FileId) :
    getLocalPathFromMetadata disk n v fh = search disk.naming pathStore n v fh := by
  induction n generalizing v fh with
  | zero => rfl
  | succ n ih =>
    have hcall : getLocalPathFromMetadata disk n = search disk.naming pathStore n := funext₂ ih
    unfold getLocalPathFromMetadata
    rw [search, hcall, show pathStore.node v fh = v.view fh from rfl]
    cases h : v.record fh with
    | none => simp [read_none h, view, h]
    | some m =>
      by_cases hbad : m.type = .bad
      · simp only [read_bad h hbad, view_bad h hbad]
        exact if_pos rfl
      · have hread : v.readHardlinks fh badStatus = (v, some m, v.linksOf fh) := by
          rw [read_some h hbad, linksOf_some h hbad]
        simp only [hread, hbad, if_false, view, h]
        split_ifs with htop
        · rfl
        · simp only [pathStore, h]

/-! ## What is written -/

theorem record_deleteMetadata (hkey : v.Keyed) (m : Metadata) (id : FileId) : ∃ r : Metadata, r.id = id ∧ r.type = .bad ∧
    (v.deleteMetadata m id none).record = update v.record id (some r) ∧
    (v.deleteMetadata m id none).hardlinks = v.hardlinks := by
  simp only [deleteMetadata, hardlinks_resetMetadata, and_true]
  cases h : v.record id with
  | some r =>
    have hr := hkey id r h
    exact ⟨{ v.nextMetadata r with mode := 0, type := .bad }, hr, rfl, record_resetMetadata h hr m⟩
  | none =>
    refine ⟨{ v.nextMetadata { m with dev := id.1, ino := id.2, gen := 1, masterFh := undefinedFh } with
      mode := 0, type := .bad }, rfl, rfl, ?_⟩
    simp only [resetMetadata, h, record_forgetMaster, record_insertRecord]
    rfl

theorem record_writeHardlinks (hid : m.id = id) (b : Bool) :
    ((v.writeHardlinks id b m left).record = v.record ∨
      ∃ link, (v.writeHardlinks id b m left).record = update v.record id (some { m with link := link })) ∧
    ∃ hl, (v.writeHardlinks id b m left).hardlinks = update v.hardlinks id hl := by
  subst hid
  cases left with
  | nil => exact ⟨Or.inl rfl, none, rfl⟩
  | cons link rest =>
    simp only [writeHardlinks]
    split_ifs
    · exact ⟨Or.inl rfl, _, rfl⟩
    · exact ⟨Or.inr ⟨noLink, record_insertRecord _⟩, _, rfl⟩
    · exact ⟨Or.inr ⟨link, record_insertRecord _⟩, _, rfl⟩

theorem Keyed.update (h : v.Keyed) (hid : m.id = id) (hrecord : v'.record = update v.record id (some m)) : v'.Keyed := by
  intro id' m' hm'
  rw [hrecord] at hm'
  exact forall_update (P := fun id m => m.id = id) hid (fun id' m' _ => h id' m') id' m' hm'

theorem finish_frame (hkey : v.Keyed) (hkey' : v'.Keyed) (h : v.view id = .links l) :
    (pathStore.finish v id v' left).Keyed ∧ ∀ y ≠ id, (pathStore.finish v id v' left).data y = v'.data y := by
  obtain ⟨m, hm, -, -⟩ := of_view_links h
  have hid := hkey id m hm
  simp only [pathStore, hm]
  -- the record is deleted if no link is left
  generalize hv1 : (if left = [] then v'.deleteMetadata m id none else v') = v1
  have hfirst : v1.Keyed ∧ ∀ y ≠ id, v1.data y = v'.data y := by
    subst hv1
    split_ifs
    · obtain ⟨r, hr, -, hrecord, hhardlinks⟩ := record_deleteMetadata hkey' m id
      refine ⟨hkey'.update hr hrecord, fun y hy => ?_⟩
      simp only [data, hrecord, hhardlinks, update_of_ne hy]
    · exact ⟨hkey', fun _ _ => rfl⟩
  split_ifs
  · obtain ⟨hrecord, hl, hhardlinks⟩ := @record_writeHardlinks v1 id m left hid true
    rcases hrecord with hrecord | ⟨link, hrecord⟩
    · refine ⟨fun id' m' hm' => hfirst.1 id' m' (hrecord ▸ hm'), fun y hy => ?_⟩
      rw [← hfirst.2 y hy]
      simp only [data, hrecord, hhardlinks, update_of_ne hy]
    · refine ⟨hfirst.1.update (m := { m with link := link }) hid hrecord, fun y hy => ?_⟩
      rw [← hfirst.2 y hy]
      simp only [data, hrecord, hhardlinks, update_of_ne hy]
  · exact hfirst

theorem hardlinks_of_suffix (hm : v.record id = some m) (hbad : m.type ≠ .bad) (hleft : left <:+ v.linksOf id)
    (hne : left ≠ []) (hdropped : left ≠ v.linksOf id) : m.link.name = [] ∧ m.link.parent ≠ (0, 0) := by
  by_contra hlink
  have hlink : m.link.name ≠ [] ∨ m.link.parent = (0, 0) := by tauto
  rw [linksOf_some hm hbad, if_pos hlink] at hleft hdropped
  rcases List.suffix_cons_iff.mp hleft with h | h
  · exact hdropped h
  · exact hne (List.suffix_nil.mp h)

theorem view_writeHardlinks (hm : v.record id = some m) (hkey : v.Keyed) (hbad : m.type ≠ .bad)
    (hlink : m.link.name = [] ∧ m.link.parent ≠ (0, 0)) (hne : left ≠ [])
    (hnamed : ∀ link ∈ left.head?, link.name ≠ []) : (v.writeHardlinks id true m left).view id = .links left := by
  have hid := hkey id m hm
  cases left with
  | nil => exact absurd rfl hne
  | cons link rest =>
    by_cases hmany : rest ≠ [] ∨ METADATA_NAME_SIZE ≤ link.name.length
    · have hwrite : v.writeHardlinks id true m (link :: rest) = v.setHardlinks id (some (link :: rest)) := by
        simp only [writeHardlinks, if_pos hmany, hlink.1, and_self, if_true]
      have hlinks : (v.setHardlinks id (some (link :: rest))).linksOf id = link :: rest := by
        rw [linksOf_some (v := v.setHardlinks id (some (link :: rest))) hm hbad, if_neg (by simp [hlink])]
        simp [setHardlinks]
      rw [hwrite, view_links (v := v.setHardlinks id (some (link :: rest))) hm hbad (by rw [hlinks]; simp), hlinks]
    · have hrest : rest = [] := by
        by_contra hrest
        exact hmany (Or.inl hrest)
      subst hrest
      have hrecord : (v.writeHardlinks id true m [link]).record id = some { m with link := link } := by
        subst hid
        simp only [writeHardlinks, if_neg hmany, record_setHardlinks, record_insertRecord]
        exact update_self ..
      have hlinks : (v.writeHardlinks id true m [link]).linksOf id = [link] := by
        rw [linksOf_some hrecord hbad, if_pos (Or.inl (hnamed link rfl))]
      rw [view_links hrecord hbad (by rw [hlinks]; simp), hlinks]

theorem finish_kept (hkey : v.Keyed) (hkey' : v'.Keyed) (h : v.view id = .links l) (hleft : left <:+ l)
    (hnamed : ∀ link ∈ left.head?, link.name ≠ []) (hsame : v'.data id = v.data id) :
    (pathStore.finish v id v' left).view id = .ofKept left := by
  obtain ⟨m, hm, hbad, rfl⟩ := of_view_links h
  have hid := hkey id m hm
  have hm' : v'.record id = some m := (congrArg Prod.fst hsame).trans hm
  simp only [pathStore, hm]
  cases left with
  | nil =>
    obtain ⟨r, hr, hrbad, hrecord, -⟩ := record_deleteMetadata hkey' m id
    have hdeleted : (v'.deleteMetadata m id none).record id = some r := by rw [hrecord, update_self]
    simp only [if_true, Node.ofKept]
    split_ifs
    · exact view_bad (v := (v'.deleteMetadata m id none).writeHardlinks id true m []) hdeleted hrbad
    · exact view_bad hdeleted hrbad
  | cons link rest =>
    simp only [reduceCtorEq, if_false, Node.ofKept]
    split_ifs with hdropped
    · exact view_writeHardlinks hm' hkey' hbad (hardlinks_of_suffix hm hbad hleft (by simp) hdropped) (by simp) hnamed
    · rw [view_congr hsame, h, not_not.mp hdropped]

theorem lastName_ne_nil {disk : Disk} {path : List Name} {name : Name} (h : disk.lstat (path ++ [name]) = some id) :
    name ≠ [] := by
  rintro rfl
  simp [Disk.lstat, List.foldlM_append, disk.named] at h

theorem pathStore_lawful (disk : Disk) : pathStore.Lawful disk.naming Keyed data where
  node_congr := view_congr
  inv hkey hkey' h _ := (finish_frame hkey hkey' h).1
  frame hkey hkey' h hy := (finish_frame hkey hkey' h).2 _ hy
  kept hkey hkey' h hleft hfirst hsame := by
    refine finish_kept hkey hkey' h hleft (fun link hlink => ?_) hsame
    obtain ⟨p, hp⟩ := hfirst link hlink
    exact lastName_ne_nil (of_decide_eq_true hp)

/-! ## Paths -/

theorem isParent_eq (disk : Disk) (v : Volume) : v.IsParent = Parent disk.naming v.view := by
  funext p id
  simp only [IsParent, Parent, view_list]
  rfl

theorem getLocalPath_of_acc (disk : Disk) (hkey : v.Keyed) (hacc : Acc v.IsParent id) :
    ∃ n v' r, getLocalPathFromMetadata disk n v id = some (v', r) ∧ Path disk.naming v.view id r ∧
      Pruned disk.naming v.view v'.view := by
  rw [isParent_eq disk] at hacc
  obtain ⟨n, v', r, hn, hpath, -, hpruned, -⟩ := returns_of_acc (pathStore_lawful disk) hacc hkey (Pruned.refl _)
  exact ⟨n, v', r, by rw [getLocalPath_eq_search, hn], hpath, hpruned⟩

theorem path_of_getLocalPath {disk : Disk} (hkey : v.Keyed) (hacc : Acc v.IsParent id) {n : ℕ} {r : Option (List Name)}
    (h : getLocalPathFromMetadata disk n v id = some (v', r)) : Path disk.naming v.view id r := by
  obtain ⟨m, v1, r1, hm, hpath, -⟩ := getLocalPath_of_acc disk hkey hacc
  rw [getLocalPath_eq_search] at h hm
  have h := search_mono (le_max_left n m) h
  rw [search_mono (le_max_right n m) hm] at h
  rwa [← (Prod.mk.inj (Option.some.inj h)).2]

theorem localPathRight_of_acc {disk : Disk} (hkey : v.Keyed) (hacc : ∀ id, Acc v.IsParent id)
    (hroot : ∀ id, v.Unlinked id → id = disk.root) (fh : FileId) : v.LocalPathRight disk fh := by
  obtain ⟨n, v', r, hn, hpath, hpruned⟩ := getLocalPath_of_acc disk hkey (hacc fh)
  have htop (id : FileId) (h : v.view id = .top) : disk.naming.leads disk.naming.top id = true := by
    rw [hroot id (unlinked_iff.mpr h)]
    exact decide_eq_true rfl
  have hleads (p : List Name) (hp : r = some p) : disk.lstat p = some fh := by
    subst hp
    exact of_decide_eq_true (hpath.leads htop)
  refine ⟨n, v', r, hn, hleads, fun hr => ?_, fun id link hlink hdropped k v'' p hp => ?_⟩
  · exact (Option.some.inj (hleads [] hr)).symm
  · rw [← view_list] at hlink hdropped
    rcases hpruned id with hsame | ⟨dead, kept, hbefore, hdead, hafter⟩
    · exact absurd (hsame ▸ hlink) hdropped
    · rw [hafter, Node.list_ofKept] at hdropped
      rw [hbefore] at hlink
      obtain ⟨r', hr', htest⟩ := hdead link ((List.mem_append.mp hlink).resolve_right hdropped)
      rw [hr'.unique (path_of_getLocalPath hkey (hacc _) hp)] at htest
      intro hlstat
      simp [test, Disk.naming, hlstat] at htest

/-! ## Where it is not right -/

def emptyDisk (root : FileId) : Disk := ⟨root, fun _ _ => none, fun _ => rfl⟩

theorem acc_of_localPathRight {root : FileId} (hkey : v.Keyed) (h : v.LocalPathRight (emptyDisk root) id) :
    Acc v.IsParent id := by
  obtain ⟨n, v', r, hn, -⟩ := h
  rw [getLocalPath_eq_search] at hn
  rw [isParent_eq (emptyDisk root)]
  refine (acc_of_search (pathStore_lawful (emptyDisk root)) (fun p link y => ?_) hn ⟨hkey, fun _ => Or.inl rfl⟩).1
  refine decide_eq_false fun hlstat => ?_
  simp [Disk.naming, Disk.lstat, emptyDisk, List.foldlM_append] at hlstat

theorem root_of_localPathRight {disk : Disk} (hid : v.Unlinked id) (h : v.LocalPathRight disk id) : id = disk.root := by
  obtain ⟨n, v', r, hn, -, hroot, -⟩ := h
  rw [getLocalPath_eq_search] at hn
  cases n with
  | zero => cases hn
  | succ n =>
    rw [search, show pathStore.node v id = .top from unlinked_iff.mp hid] at hn
    exact hroot (Prod.mk.inj (Option.some.inj hn)).2.symm

end Volume

/-- On all disks with the root of the volume the function returns and is right just where no file is its own ancestor
and only the root has no name. -/
theorem getLocalPath_iff (s : MetadataStore) (root : FileId) :
    (∀ disk : Disk, disk.root = root → ∀ fh, s.vol.LocalPathRight disk fh) ↔
      (∀ fh, Acc s.vol.IsParent fh) ∧ ∀ fh, s.vol.Unlinked fh → fh = root := by
  constructor
  · intro h
    have hempty := h (Volume.emptyDisk root) rfl
    exact ⟨fun fh => Volume.acc_of_localPathRight s.key (hempty fh),
      fun fh hfh => Volume.root_of_localPathRight hfh (hempty fh)⟩
  · rintro ⟨hacc, hroot⟩ disk rfl fh
    exact Volume.localPathRight_of_acc s.key hacc hroot fh

def directories (links : List (FileId × Link)) : MetadataStore where
  vol :=
    { isCopy := false
      metadata := fun id => (links.lookup id).map fun link =>
        (⟨0, id.1, id.2, 1, undefinedFh, 1, 1, 0, .dir, 0, 0⟩, link)
      fhMapping := fun _ => none
      hardlinks := fun _ => none }
  key id m h := by
    simp only [Volume.record, Option.map_map, Option.map_eq_some_iff] at h
    obtain ⟨link, -, rfl⟩ := h
    rfl

/-- Two directories, each of which is the parent of the other. -/
def cyclic : Volume := (directories [((1, 5), ⟨(1, 6), [97]⟩), ((1, 6), ⟨(1, 5), [98]⟩)]).vol

def nameless : Volume := (directories [((1, 7), noLink)]).vol

/-- The function never returns for the directories in a cycle, and it returns the path of the root for another
directory. -/
theorem getLocalPath_wrong :
    (∀ disk n, getLocalPathFromMetadata disk n cyclic (1, 5) = none) ∧
      ∀ disk : Disk, disk.root = (1, 1) →
        getLocalPathFromMetadata disk 1 nameless (1, 7) = some (nameless, some []) ∧ disk.lstat [] = some (1, 1) := by
  refine ⟨fun disk n => ?_, fun disk hroot => ⟨rfl, congrArg some hroot⟩⟩
  have hboth : getLocalPathFromMetadata disk n cyclic (1, 5) = none ∧
      getLocalPathFromMetadata disk n cyclic (1, 6) = none := by
    induction n with
    | zero => exact ⟨rfl, rfl⟩
    | succ n ih =>
      have hfirst : cyclic.view (1, 5) = .links [⟨(1, 6), [97]⟩] := rfl
      have hsecond : cyclic.view (1, 6) = .links [⟨(1, 5), [98]⟩] := rfl
      simp only [Volume.getLocalPath_eq_search] at ih ⊢
      constructor
      · rw [search, show Volume.pathStore.node cyclic (1, 5) = _ from hfirst]
        simp only [walk_cons, show disk.naming.parent ⟨(1, 6), [97]⟩ = (1, 6) from rfl, ih.2, Option.bind_none, Option.map_none]
      · rw [search, show Volume.pathStore.node cyclic (1, 6) = _ from hsecond]
        simp only [walk_cons, show disk.naming.parent ⟨(1, 5), [98]⟩ = (1, 5) from rfl, ih.1, Option.bind_none, Option.map_none]
  exact hboth.1

end ZFS.Meta
