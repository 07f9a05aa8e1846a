import ZlomekFS.Proofs.VirtualShape

/-! The tree of virtual directories mirrors the mountpoints of the volumes, as long as no directory above an unmounted
volume is busy and no directory keeps a volume that is gone. -/

namespace ZFS.Virtual
open Function Indexed Tables VirtualTree List

structure VirtualDir.Same (d d' : VirtualDir) : Prop where
  vol : d'.vol = d.vol
  nMountpoints : d'.nMountpoints = d.nMountpoints
  busy : d'.busy = d.busy
  deleted : d'.deleted = d.deleted

namespace VirtualTree

variable {s s' : VirtualTree} {path path' : ℕ → List Name}

def links (s : VirtualTree) (vd : ℕ) : Option DirLink := (s.dirs vd).map (·.toDirLink)

/-- The parent of a directory, and its name there. -/
def place (s : VirtualTree) (vd : ℕ) : Option (ℕ × Name) := (s.links vd).bind fun l => l.parent.map (·, l.name)

def subdirsOf (s : VirtualTree) (vd : ℕ) : List ℕ := (s.links vd).elim [] DirLink.subdirs

def indexOf (s : VirtualTree) (vd : ℕ) : ℕ := (s.links vd).elim 0 DirLink.subdirIndex

/-- The tree of the directories, with the names from the root to each of them. -/
def Shaped (s : VirtualTree) (path : ℕ → List Name) : Prop :=
  Shape (fun vd => s.dirs vd ≠ none) s.place s.subdirsOf s.indexOf s.byName s.nextDir path

variable {vd p : ℕ} {d : VirtualDir} {vols : List Volume}

theorem links_of_dirs (h : s.dirs vd = some d) : s.links vd = some d.toDirLink := by
  rw [links, h, Option.map_some]

theorem place_of_dirs (h : s.dirs vd = some d) (hp : d.parent = some p) : s.place vd = some (p, d.name) := by
  rw [place, links_of_dirs h, Option.bind_some, hp, Option.map_some]

theorem place_eq_none (h : s.dirs vd = some d) (hp : d.parent = none) : s.place vd = none := by
  rw [place, links_of_dirs h, Option.bind_some, hp, Option.map_none]

theorem place_eq_some {name : Name} :
    s.place vd = some (p, name) ↔ ∃ d, s.dirs vd = some d ∧ d.parent = some p ∧ d.name = name := by
  simp [place, links, Option.bind_eq_some_iff]

theorem Shaped.congr (h : s.Shaped path) (hlinks : s'.links = s.links) (hname : s'.byName = s.byName)
    (hnext : s'.nextDir = s.nextDir) : s'.Shaped path := by
  have hlive : ∀ vd, s'.dirs vd = none ↔ s.dirs vd = none := by
    intro vd
    have hvd := congrFun hlinks vd
    rw [links, links] at hvd
    rw [← Option.map_eq_none_iff, hvd, Option.map_eq_none_iff]
  have hplace : s'.place = s.place := funext fun vd => by rw [place, hlinks, place]
  have hsub : s'.subdirsOf = s.subdirsOf := funext fun vd => by rw [subdirsOf, hlinks, subdirsOf]
  have hindex : s'.indexOf = s.indexOf := funext fun vd => by rw [indexOf, hlinks, indexOf]
  simp only [Shaped, Ne, hlive, hplace, hsub, hindex, hname, hnext]
  exact h

theorem modifyDir_eq (h : s.dirs vd = some d) (f : VirtualDir → VirtualDir) :
    s.modifyDir vd f = s.setDir vd (f d) := by
  rw [modifyDir, h]

theorem setDir_self (s : VirtualTree) (vd : ℕ) (d : VirtualDir) : (s.setDir vd d).dirs vd = some d := update_self ..

theorem setDir_of_ne (s : VirtualTree) {vd a : ℕ} (h : a ≠ vd) (d : VirtualDir) :
    (s.setDir vd d).dirs a = s.dirs a := update_of_ne h ..

/-- A change of what a directory holds leaves the tree. -/
theorem setDir_links {d d' : VirtualDir} (h : s.dirs vd = some d) (hd : d'.toDirLink = d.toDirLink) :
    (s.setDir vd d').links = s.links := by
  funext a
  by_cases ha : a = vd
  · subst ha
    rw [links, setDir_self, links_of_dirs h, Option.map_some, hd]
  · rw [links, setDir_of_ne s ha, links]

/-! ## Paths -/

/-- The directories on a path are created: `target` is the path of the last one. -/
structure Grown (s s' : VirtualTree) (path path' : ℕ → List Name) (target : List Name) : Prop where
  shape : s'.Shaped path'
  old : ∀ vd d, s.dirs vd = some d → path' vd = path vd ∧ ∃ d', s'.dirs vd = some d' ∧ d.Same d'
  new : ∀ vd d, s.dirs vd = none → s'.dirs vd = some d →
    d.vol = none ∧ d.nMountpoints = 0 ∧ d.deleted = 0 ∧ path' vd <+: target
  volumes : s'.volumes = s.volumes

theorem Grown.refl (h : s.Shaped path) (target : List Name) : Grown s s path path target where
  shape := h
  old _ d hd := ⟨rfl, d, hd, rfl, rfl, rfl, rfl⟩
  new _ _ hnone hd := by
    rw [hnone] at hd
    cases hd
  volumes := rfl

theorem Grown.trans {s1 : VirtualTree} {path1 : ℕ → List Name} {target : List Name}
    (h : Grown s s1 path path1 target) (h' : Grown s1 s' path1 path' target) : Grown s s' path path' target where
  shape := h'.shape
  old vd d hd := by
    obtain ⟨hpath, d1, hd1, hsame⟩ := h.old vd d hd
    obtain ⟨hpath', d', hd', hsame'⟩ := h'.old vd d1 hd1
    exact ⟨hpath'.trans hpath, d', hd', hsame'.vol.trans hsame.vol, hsame'.nMountpoints.trans hsame.nMountpoints,
      hsame'.busy.trans hsame.busy, hsame'.deleted.trans hsame.deleted⟩
  new vd d' hnone hd' := by
    cases hd1 : s1.dirs vd with
    | none => exact h'.new vd d' hd1 hd'
    | some d1 =>
      obtain ⟨hvol, hn, hdel, hpre⟩ := h.new vd d1 hnone hd1
      obtain ⟨hpath, d2, hd2, hsame⟩ := h'.old vd d1 hd1
      obtain rfl : d2 = d' := Option.some.inj (hd2.symm.trans hd')
      exact ⟨hsame.vol.trans hvol, hsame.nMountpoints.trans hn, hsame.deleted.trans hdel, by rwa [hpath]⟩
  volumes := h'.volumes.trans h.volumes

theorem virtualDirCreate_grown (h : s.Shaped path) {p : ℕ} {dp : VirtualDir} {name : Name} (hp : s.dirs p = some dp)
    (hname : s.byName (p, name) = none) {target : List Name} (htarget : path p ++ [name] <+: target) :
    Grown s (s.virtualDirCreate p name) path (Function.update path s.nextDir (path p ++ [name])) target := by
  have hnext : ∀ vd, s.dirs vd ≠ none → vd ≠ s.nextDir := fun vd hvd => (h.bound vd hvd).ne
  have hdirs : ∀ a, (s.virtualDirCreate p name).dirs a =
      if a = s.nextDir then some ⟨⟨some p, name, [], dp.subdirs.length⟩, none, 0, false, 0, 0⟩
      else if a = p then some { dp with subdirs := dp.subdirs ++ [s.nextDir] } else s.dirs a := by
    intro a
    simp only [virtualDirCreate, modifyDir_eq hp, hp, setDir, update_apply]
  have hrest : (s.virtualDirCreate p name).byName = Function.update s.byName (p, name) (some s.nextDir) ∧
      (s.virtualDirCreate p name).nextDir = s.nextDir + 1 ∧ (s.virtualDirCreate p name).volumes = s.volumes := by
    simp only [virtualDirCreate, modifyDir_eq hp, setDir, and_self]
  constructor
  case shape =>
    rw [Shaped, hrest.1, hrest.2.1]
    refine Shape.create h (by simp [hp]) hname (fun a => ?_) (funext fun a => ?_) (fun a _ => ?_) fun a _ => ?_
    · rw [hdirs]
      split_ifs with hn hap <;> simp [*]
    all_goals
      simp only [place, subdirsOf, indexOf, links, hdirs, update_apply]
      split_ifs with hn hap <;> simp [*]
  case old =>
    intro vd d hd
    have hvd := hnext vd (by simp [hd])
    refine ⟨update_of_ne hvd .., ?_⟩
    rw [hdirs, if_neg hvd]
    split_ifs with hvp
    · subst hvp
      obtain rfl : d = dp := Option.some.inj (hd.symm.trans hp)
      exact ⟨_, rfl, rfl, rfl, rfl, rfl⟩
    · exact ⟨d, hd, rfl, rfl, rfl, rfl⟩
  case new =>
    intro vd d hnone hd
    rw [hdirs] at hd
    split_ifs at hd with hn hvp
    · cases hd
      exact ⟨rfl, rfl, rfl, by rwa [hn, update_self]⟩
    · rw [hvp, hp] at hnone
      cases hnone
    · rw [hnone] at hd
      cases hd
  case volumes => exact hrest.2.2

theorem createPath_grown {target : List Name} : ∀ (names : List Name) (vd : ℕ) (s : VirtualTree)
    (path : ℕ → List Name), s.Shaped path → s.dirs vd ≠ none → path vd ++ names = target →
    ∃ path', Grown s (createPath names vd s).1 path path' target ∧
      (createPath names vd s).1.dirs (createPath names vd s).2 ≠ none ∧ path' (createPath names vd s).2 = target := by
  intro names
  induction names with
  | nil =>
    intro vd s path h hvd htarget
    exact ⟨path, Grown.refl h target, hvd, (append_nil _).symm.trans htarget⟩
  | cons name names ih =>
    intro vd s path h hvd htarget
    rw [createPath]
    cases hname : s.byName (vd, name) with
    | some sub =>
      dsimp only
      obtain ⟨hsub, -, -, hpath⟩ := h.place_spec ((h.inverse _ sub).mp hname)
      refine ih sub s path h hsub ?_
      rw [hpath, append_assoc]
      exact htarget
    | none =>
      dsimp only
      obtain ⟨dp, hp⟩ := Option.ne_none_iff_exists'.mp hvd
      have hpre : path vd ++ [name] <+: target := ⟨names, by rw [append_assoc]; exact htarget⟩
      have hgrown := virtualDirCreate_grown h hp hname hpre
      obtain ⟨path', hgrown', hsub, hpath'⟩ := ih s.nextDir (s.virtualDirCreate vd name) _ hgrown.shape
        (by simp [virtualDirCreate]) (by rw [update_self, append_assoc]; exact htarget)
      exact ⟨path', hgrown.trans hgrown', hsub, hpath'⟩

/-! ## Counting -/

/-- Every directory on the way to the root counts one volume more. -/
theorem addMountpoint_spec : ∀ (fuel vd : ℕ) (s : VirtualTree), s.Shaped path → s.dirs vd ≠ none →
    (path vd).length < fuel →
    (addMountpoint fuel vd s).byName = s.byName ∧ (addMountpoint fuel vd s).nextDir = s.nextDir ∧
    (addMountpoint fuel vd s).volumes = s.volumes ∧ ∀ a, (addMountpoint fuel vd s).dirs a = (s.dirs a).map fun d =>
      if path a <+: path vd then { d with nMountpoints := d.nMountpoints + 1 } else d := by
  intro fuel
  induction fuel with
  | zero =>
    intro vd s _ _ hlt
    exact absurd hlt (Nat.not_lt_zero _)
  | succ fuel ih =>
    intro vd s h hvd hlt
    obtain ⟨d, hd⟩ := Option.ne_none_iff_exists'.mp hvd
    have hsh : (s.setDir vd { d with nMountpoints := d.nMountpoints + 1 }).Shaped path :=
      h.congr (setDir_links hd rfl) rfl rfl
    simp only [addMountpoint, hd]
    cases hparent : d.parent with
    | none =>
      refine ⟨rfl, rfl, rfl, fun a => ?_⟩
      have hroot : vd = root := h.eq_root hvd (place_eq_none hd hparent)
      subst hroot
      by_cases ha : a = root
      · subst ha
        rw [setDir_self, hd]
        simp
      · rw [setDir_of_ne s ha]
        cases hda : s.dirs a with
        | none => rfl
        | some da =>
          have hne : ¬ path a <+: path root := by
            rw [h.rootPath, prefix_nil, h.path_eq_nil (by simp [hda])]
            exact ha
          rw [Option.map_some, if_neg hne]
    | some p =>
      have hplace := place_of_dirs hd hparent
      obtain ⟨-, hp, hpv, hpath⟩ := h.place_spec hplace
      have hlen : (path vd).length = (path p).length + 1 := by rw [hpath]; simp
      have hp' : (s.setDir vd { d with nMountpoints := d.nMountpoints + 1 }).dirs p ≠ none := by
        rwa [setDir_of_ne s hpv.ne]
      obtain ⟨hname, hnext, hvols, hdirs⟩ := ih p _ hsh hp' (by omega)
      refine ⟨hname, hnext, hvols, fun a => ?_⟩
      rw [hdirs a]
      by_cases ha : a = vd
      · subst ha
        have hne : ¬ path a <+: path p := h.not_prefix_parent hplace
        rw [setDir_self, hd, Option.map_some, Option.map_some, if_neg hne, if_pos (prefix_refl _)]
      · rw [setDir_of_ne s ha]
        cases hda : s.dirs a with
        | none => rfl
        | some da =>
          have hiff : path a <+: path vd ↔ path a <+: path p := by
            rw [h.prefix_iff hplace (by simp [hda])]
            exact or_iff_right ha
          simp only [Option.map_some, hiff]

theorem mountedBelow_eq_zero {π : List Name} : mountedBelow vols π = 0 ↔ ∀ m ∈ vols, ¬ π <+: m.path := by
  simp [mountedBelow, filter_eq_nil_iff]

theorem mountedBelow_cons (m : Volume) (vols : List Volume) (π : List Name) :
    mountedBelow (m :: vols) π = mountedBelow vols π + if π <+: m.path then 1 else 0 := by
  rw [mountedBelow, filter_cons, mountedBelow]
  by_cases hm : π <+: m.path <;> simp [hm]

theorem mountedBelow_le (vols : List Volume) (π : List Name) : mountedBelow vols π ≤ vols.length :=
  length_filter_le ..

/-- Without a volume, one volume less is counted above it. -/
theorem mountedBelow_remove {m : Volume} {π : List Name} : ∀ {vols : List Volume}, (vols.map Volume.id).Nodup →
    m ∈ vols → mountedBelow vols π =
      mountedBelow (vols.filter (·.id ≠ m.id)) π + if π <+: m.path then 1 else 0 := by
  intro vols
  induction vols with
  | nil =>
    intro _ hm
    cases hm
  | cons m' vols ih =>
    intro hids hm
    rw [map_cons, nodup_cons] at hids
    rw [mountedBelow_cons]
    rcases mem_cons.mp hm with rfl | hm
    · -- the ids differ: the rest of the volumes stays
      have hrest : (m :: vols).filter (·.id ≠ m.id) = vols := by
        rw [filter_cons_of_neg (by simp), filter_eq_self]
        intro m' hm'
        have hne : m'.id ≠ m.id := fun heq => hids.1 (heq ▸ mem_map_of_mem hm')
        simpa using hne
      rw [hrest]
    · have hne : m'.id ≠ m.id := fun heq => hids.1 (heq ▸ mem_map_of_mem hm)
      rw [filter_cons_of_pos (by simpa using hne), mountedBelow_cons, ih hids.2 hm]
      omega

/-! ## A volume is removed -/

/-- The count that the directories above a removed volume still have too much, up to the one at `pending`. -/
def owes (pending : Option (List Name)) (path : List Name) : ℕ :=
  match pending with
  | some π => if path <+: π then 1 else 0
  | none => 0

theorem owes_le (pending : Option (List Name)) (π : List Name) : owes pending π ≤ 1 := by
  cases pending with
  | none => exact Nat.zero_le _
  | some _ =>
    rw [owes]
    split_ifs <;> omega

theorem owes_eq_one {π σ : List Name} : owes (some π) σ = 1 ↔ σ <+: π := by
  rw [owes]
  split_ifs with h <;> simp [h]

/-- What the directory at a path holds, while those from `pending` to the root still count a volume that is removed. -/
structure DirOk (vols : List Volume) (pending : Option (List Name)) (vd : ℕ) (π : List Name) (d : VirtualDir) :
    Prop where
  pos : d.nMountpoints.toNat ≠ 0
  count : d.nMountpoints.toNat = mountedBelow vols π + (if vd = root then 1 else 0) + owes pending π
  deleted : d.deleted = 0
  idle : owes pending π = 1 → d.busy = false
  vol : ∀ v, d.vol = some v → (∃ m ∈ vols, m.id = v ∧ m.path = π) ∨
    owes pending π = 1 ∧ vd ≠ root ∧ mountedBelow vols π = 0

/-- The tree is that of the volumes, but for what the directories above `pending` count too much. -/
structure Settling (s : VirtualTree) (path : ℕ → List Name) (vols : List Volume) (pending : Option (List Name)) :
    Prop where
  shape : s.Shaped path
  dir : ∀ vd d, s.dirs vd = some d → DirOk vols pending vd (path vd) d
  rootVd : ∀ m ∈ vols, s.dirs m.rootVd ≠ none ∧ path m.rootVd = m.path

theorem DirOk.of_none {π : List Name} {d' : VirtualDir} (h : DirOk vols none vd π d) (hvol : d'.vol = d.vol)
    (hn : d'.nMountpoints = d.nMountpoints) (hdel : d'.deleted = d.deleted) : DirOk vols none vd π d' :=
  ⟨hn ▸ h.pos, hn ▸ h.count, hdel.trans h.deleted, (fun how => by cases how), fun v hv => h.vol v (hvol.symm.trans hv)⟩

theorem DirOk.turn {pending pending' : Option (List Name)} {a : ℕ} {π : List Name} {d' : VirtualDir}
    (h : DirOk vols pending a π d) (howes : owes pending π = owes pending' π + if a = vd then 1 else 0)
    (hvol : d'.vol = d.vol) (hbusy : d'.busy = d.busy) (hdel : d'.deleted = d.deleted)
    (hn : d.nMountpoints.toNat = d'.nMountpoints.toNat + if a = vd then 1 else 0) (hpos : d'.nMountpoints.toNat ≠ 0) :
    DirOk vols pending' a π d' := by
  have hcount := h.count
  have hle := owes_le pending π
  refine ⟨hpos, by omega, hdel.trans h.deleted, fun how => hbusy.trans (h.idle (by omega)), fun v hv => ?_⟩
  rcases h.vol v (hvol.symm.trans hv) with hm | ⟨how, hroot, hzero⟩
  · exact Or.inl hm
  · -- the directory itself is left only if another volume is below it
    rw [if_neg hroot] at hcount
    exact Or.inr ⟨by omega, hroot, hzero⟩

/-- What a directory still counts is what its parent and those above do, and one for itself. -/
theorem owes_parent (h : s.Shaped path) {vd a : ℕ} (hd : s.dirs vd = some d)
    (ha : s.dirs a ≠ none) :
    owes (some (path vd)) (path a) = owes (d.parent.map path) (path a) + if a = vd then 1 else 0 := by
  cases hparent : d.parent with
  | none =>
    obtain rfl := h.eq_root (by simp [hd]) (place_eq_none hd hparent)
    simp only [owes, h.rootPath, prefix_nil, h.path_eq_nil ha, Option.map_none, zero_add]
  | some p =>
    have hplace := place_of_dirs hd hparent
    simp only [owes, h.prefix_iff hplace ha, Option.map_some]
    by_cases hav : a = vd
    · subst hav
      rw [if_pos (Or.inl rfl), if_neg (h.not_prefix_parent hplace), if_pos rfl]
    · simp [hav]

/-- A directory that is left by the removal: it counts one volume less, or it is gone with the last one. -/
theorem Settling.turn
    (h : Settling s path vols (some (path vd))) (hd : s.dirs vd = some d) (hshape : s'.Shaped path)
    (hdirs : ∀ a d', s'.dirs a = some d' → ∃ da, s.dirs a = some da ∧ d'.vol = da.vol ∧ d'.busy = da.busy ∧
      d'.deleted = da.deleted ∧ da.nMountpoints.toNat = d'.nMountpoints.toNat + if a = vd then 1 else 0)
    (hkept : ∀ a, s.dirs a ≠ none → (s'.dirs a ≠ none ↔ ¬ (a = vd ∧ d.nMountpoints.toNat = 1))) :
    Settling s' path vols (d.parent.map path) := by
  refine ⟨hshape, fun a d' hd' => ?_, fun m hm => ?_⟩
  · obtain ⟨da, hda, hvol, hbusy, hdel, hn⟩ := hdirs a d' hd'
    have hok := h.dir a da hda
    refine hok.turn (owes_parent h.shape hd (by simp [hda])) hvol hbusy hdel hn fun hzero => ?_
    have hpos := hok.pos
    by_cases hav : a = vd
    · subst hav
      obtain rfl : da = d := Option.some.inj (hda.symm.trans hd)
      rw [if_pos rfl] at hn
      exact (hkept a (by simp [hd])).mp (by simp [hd']) ⟨rfl, by omega⟩
    · rw [if_neg hav] at hn
      omega
  · obtain ⟨hdir, hpath⟩ := h.rootVd m hm
    refine ⟨(hkept _ hdir).mpr ?_, hpath⟩
    rintro ⟨heq, hone⟩
    have hcount := (h.dir vd d hd).count
    have hpos : mountedBelow vols (path vd) ≠ 0 := by
      rw [Ne, mountedBelow_eq_zero]
      intro hnone
      exact hnone m hm (by rw [← hpath, heq])
    rw [owes_eq_one.mpr (prefix_refl _)] at hcount
    omega

/-- A directory without subdirectories leaves the tree; the others keep what they hold. -/
theorem free_spec (h : s.Shaped path) (hd : s.dirs vd = some d) (hparent : d.parent = some p)
    (hleaf : ∀ c n, s.place c ≠ some (vd, n)) :
    (s.free vd d).Shaped path ∧ (∀ a, (s.free vd d).dirs a ≠ none ↔ s.dirs a ≠ none ∧ a ≠ vd) ∧
    (∀ a d', (s.free vd d).dirs a = some d' → a ≠ vd ∧ ∃ da, s.dirs a = some da ∧ da.Same d') ∧
    (s.free vd d).volumes = s.volumes ∧ (s.free vd d).nextDir = s.nextDir := by
  have hplace := place_of_dirs hd hparent
  obtain ⟨-, hlp, -, -⟩ := h.place_spec hplace
  obtain ⟨dp, hp⟩ := Option.ne_none_iff_exists'.mp hlp
  have hsubs : s.subdirsOf p = dp.subdirs := by rw [subdirsOf, links_of_dirs hp, Option.elim_some]
  have hsub := h.children p hlp
  rw [hsubs] at hsub
  have hmem : vd ∈ dp.subdirs := hsub.mem_iff.mpr ⟨_, hplace⟩
  obtain ⟨top, htop⟩ : ∃ top, dp.subdirs.getLast? = some top :=
    ⟨_, getLast?_eq_some_getLast (ne_nil_of_mem hmem)⟩
  obtain ⟨n, htopp⟩ := hsub.mem_iff.mp (mem_of_getLast? htop)
  obtain ⟨hlt, -, hptop, -⟩ := h.place_spec htopp
  obtain ⟨dt, ht⟩ := Option.ne_none_iff_exists'.mp hlt
  have ht' : (s.setDir p { dp with subdirs := swapRemove dp.subdirs d.subdirIndex }).dirs top = some dt := by
    rw [setDir_of_ne s hptop.ne', ht]
  -- the new contents, read as one map over the old ones
  have hfree : s.free vd d =
      { ((s.setDir p { dp with subdirs := swapRemove dp.subdirs d.subdirIndex }).setDir top
          { dt with subdirIndex := d.subdirIndex }) with
        dirs := Function.update ((s.setDir p { dp with subdirs := swapRemove dp.subdirs d.subdirIndex }).setDir top
          { dt with subdirIndex := d.subdirIndex }).dirs vd none
        byName := Function.update s.byName (p, d.name) none } := by
    simp only [free, hparent, hp, htop, Option.getD_some, modifyDir_eq hp, modifyDir_eq ht']
    rfl
  have hdirs : ∀ a, (s.free vd d).dirs a =
      if a = vd then none
      else if a = top then some { dt with subdirIndex := d.subdirIndex }
      else if a = p then some { dp with subdirs := swapRemove dp.subdirs d.subdirIndex } else s.dirs a := by
    intro a
    simp only [hfree, setDir, update_apply]
  have hlive : ∀ a, (s.free vd d).dirs a ≠ none ↔ s.dirs a ≠ none ∧ a ≠ vd := by
    intro a
    rw [hdirs]
    split_ifs with hav hat hap
    · simp [hav]
    · subst hat
      simp [hav, ht]
    · subst hap
      simp [hav, hp]
    · simp [hav]
  refine ⟨?_, hlive, fun a d' hd' => ?_, by rw [hfree]; rfl, by rw [hfree]; rfl⟩
  · have hname : (s.free vd d).byName = Function.update s.byName (p, d.name) none := by rw [hfree]
    have hnext : (s.free vd d).nextDir = s.nextDir := by rw [hfree]; rfl
    rw [Shaped, hname, hnext]
    refine Shape.remove h hplace hleaf (hsubs ▸ htop) hlive (funext fun a => ?_) (fun a ha => ?_) fun a ha => ?_
    all_goals
      simp only [place, subdirsOf, indexOf, links, hdirs, update_apply]
      split_ifs with hav hat hap <;> simp_all
  · rw [hdirs] at hd'
    split_ifs at hd' with hav hat hap
    · cases hd'
      exact ⟨hav, dt, hat ▸ ht, rfl, rfl, rfl, rfl⟩
    · cases hd'
      exact ⟨hav, dp, hap ▸ hp, rfl, rfl, rfl, rfl⟩
    · exact ⟨hav, d', hd', rfl, rfl, rfl, rfl⟩

/-- The last volume of the subtree goes: the directory is freed. -/
theorem Settling.turn_free
    (h : Settling s path vols (some (path vd))) (hd : s.dirs vd = some d) (hn : d.nMountpoints.toNat = 1) :
    Settling (s.free vd d) path vols (d.parent.map path) ∧
    (∀ p, d.parent = some p → (s.free vd d).dirs p ≠ none) ∧
    (s.free vd d).volumes = s.volumes ∧ (s.free vd d).nextDir = s.nextDir := by
  have hcount := (h.dir vd d hd).count
  rw [hn, owes_eq_one.mpr (prefix_refl _)] at hcount
  have hroot : vd ≠ root := by
    rintro rfl
    rw [if_pos rfl] at hcount
    omega
  have hzero : mountedBelow vols (path vd) = 0 := by omega
  obtain ⟨p, name, hplace, hlp, hlt, -⟩ := h.shape.placed vd (by simp [hd]) hroot
  obtain ⟨d', hd', hparent, -⟩ := place_eq_some.mp hplace
  obtain rfl : d = d' := Option.some.inj (hd.symm.trans hd')
  have hleaf : ∀ c n, s.place c ≠ some (vd, n) := by
    intro c n hc
    obtain ⟨hcl, -, hlt, hpath⟩ := h.shape.place_spec hc
    obtain ⟨dc, hdc⟩ := Option.ne_none_iff_exists'.mp hcl
    have hok := h.dir c dc hdc
    have hnone : mountedBelow vols (path c) = 0 := by
      rw [mountedBelow_eq_zero] at hzero ⊢
      intro m hm hpre
      exact hzero m hm ((hpath ▸ prefix_append ..).trans hpre)
    have howes : owes (some (path vd)) (path c) = 0 := if_neg (h.shape.not_prefix_parent hc)
    have hsum := hok.count
    have hroot : c ≠ root := Nat.ne_zero_of_lt hlt
    rw [hnone, howes, if_neg hroot] at hsum
    exact hok.pos hsum
  obtain ⟨hshape, hlive, hsame, hvols, hnext⟩ := free_spec h.shape hd hparent hleaf
  refine ⟨h.turn hd hshape (fun a d' hd' => ?_) (fun a ha => ?_), fun p' hp' => ?_, hvols, hnext⟩
  · obtain ⟨hav, da, hda, hsame⟩ := hsame a d' hd'
    exact ⟨da, hda, hsame.vol, hsame.busy, hsame.deleted, by rw [hsame.nMountpoints, if_neg hav, add_zero]⟩
  · rw [hlive, hn]
    simp [ha]
  · obtain rfl : p' = p := Option.some.inj (hp'.symm.trans hparent)
    exact (hlive p').mpr ⟨hlp, hlt.ne⟩

theorem Settling.turn_set {d d1 : VirtualDir}
    (h : Settling s path vols (some (path vd))) (hd : s.dirs vd = some d) (hlink : d1.toDirLink = d.toDirLink)
    (hvol : d1.vol = d.vol) (hbusy : d1.busy = d.busy) (hdel : d1.deleted = d.deleted)
    (hn : d.nMountpoints.toNat = d1.nMountpoints.toNat + 1) (hne : d.nMountpoints.toNat ≠ 1) :
    Settling (s.setDir vd d1) path vols (d.parent.map path) := by
  refine h.turn hd (h.shape.congr (setDir_links hd hlink) rfl rfl) ?_ ?_
  · intro a d' hd'
    by_cases hav : a = vd
    · subst hav
      rw [setDir_self] at hd'
      cases hd'
      exact ⟨d, hd, hvol, hbusy, hdel, by rw [if_pos rfl, hn]⟩
    · rw [setDir_of_ne s hav] at hd'
      exact ⟨d', hd', rfl, rfl, rfl, by rw [if_neg hav, add_zero]⟩
  · intro a ha
    by_cases hav : a = vd
    · subst hav
      simp [setDir_self, hne]
    · simp [setDir_of_ne s hav, hav, ha]

/-- The loop towards the root settles what the directories count too much. -/
theorem destroyLoop_settles : ∀ (fuel vd : ℕ) (s : VirtualTree),
    Settling s path vols (some (path vd)) → s.dirs vd ≠ none → (path vd).length < fuel →
    Settling (destroyLoop fuel vd 1 s) path vols none ∧ (destroyLoop fuel vd 1 s).volumes = s.volumes := by
  intro fuel
  induction fuel with
  | zero =>
    intro vd s _ _ hlt
    exact absurd hlt (Nat.not_lt_zero _)
  | succ fuel ih =>
    intro vd s h hvd hlt
    obtain ⟨d, hd⟩ := Option.ne_none_iff_exists'.mp hvd
    have howes : owes (some (path vd)) (path vd) = 1 := owes_eq_one.mpr (prefix_refl _)
    have hok := h.dir vd d hd
    have hidle : d.busy = false := hok.idle howes
    have hdel : d.deleted = 0 := hok.deleted
    have hpos : 1 ≤ d.nMountpoints.toNat := Nat.one_le_iff_ne_zero.mpr hok.pos
    have hsub : (d.nMountpoints - 1).toNat = d.nMountpoints.toNat - 1 :=
      UInt32.toNat_sub_of_le _ _ (UInt32.le_iff_toNat_le.mpr (by simpa using hpos))
    simp only [destroyLoop, hd, hidle, hdel, Bool.false_eq_true, if_false,
      show ¬ (1 : UInt32) < 0 by decide]
    -- what is left after this directory
    obtain ⟨s1, hs1, hset, hkept, hvols⟩ : ∃ s1, (if d.nMountpoints - 1 = 0 then s.free vd d
        else s.setDir vd { d with nMountpoints := d.nMountpoints - 1, deleted := 0, busy := false }) = s1 ∧
        Settling s1 path vols (d.parent.map path) ∧ (∀ p, d.parent = some p → s1.dirs p ≠ none) ∧
        s1.volumes = s.volumes := by
      by_cases hn : d.nMountpoints - 1 = 0
      · have hone : d.nMountpoints.toNat = 1 := by
          have hzero : (d.nMountpoints - 1).toNat = 0 := by rw [hn]; rfl
          omega
        obtain ⟨hset, hkept, hvols, -⟩ := h.turn_free hd hone
        exact ⟨_, if_pos hn, hset, hkept, hvols⟩
      · have hne : d.nMountpoints.toNat ≠ 1 := by
          intro hone
          refine hn (UInt32.toNat_inj.mp ?_)
          rw [hsub, hone]
          rfl
        refine ⟨_, if_neg hn, h.turn_set hd rfl rfl hidle.symm hdel.symm ?_ hne, ?_, rfl⟩
        · rw [hsub]
          omega
        · intro p hp
          obtain ⟨-, hlp, hpvd, -⟩ := h.shape.place_spec (place_of_dirs hd hp)
          rwa [setDir_of_ne s hpvd.ne]
    rw [hs1]
    cases hparent : d.parent with
    | none =>
      rw [hparent] at hset
      exact ⟨hset, hvols⟩
    | some p =>
      rw [hparent] at hset
      obtain ⟨-, -, -, hpath⟩ := h.shape.place_spec (place_of_dirs hd hparent)
      have hlen : (path vd).length = (path p).length + 1 := by rw [hpath]; simp
      obtain ⟨hset', hvols'⟩ := ih p s1 hset (hkept p hparent) (by omega)
      exact ⟨hset', hvols'.trans hvols⟩

/-! ## Runs -/

structure Mounted (s : VirtualTree) (path : ℕ → List Name) : Prop where
  settled : Settling s path s.volumes none
  ids : (s.volumes.map Volume.id).Nodup
  length : s.volumes.length + 1 < 2 ^ 32

theorem Shaped.length_lt (h : s.Shaped path) (hvd : s.dirs vd ≠ none) : (path vd).length < s.nextDir :=
  (h.length_le vd hvd).trans_lt (h.bound vd hvd)

theorem pathTo_eq (h : s.Shaped path) : ∀ (fuel vd : ℕ), s.dirs vd ≠ none → (path vd).length < fuel →
    s.pathTo fuel vd = path vd := by
  intro fuel
  induction fuel with
  | zero =>
    intro vd _ hlt
    exact absurd hlt (Nat.not_lt_zero _)
  | succ fuel ih =>
    intro vd hvd hlt
    obtain ⟨d, hd⟩ := Option.ne_none_iff_exists'.mp hvd
    rw [pathTo, hd]
    dsimp only
    cases hparent : d.parent with
    | none =>
      obtain rfl := h.eq_root hvd (place_eq_none hd hparent)
      exact h.rootPath.symm
    | some p =>
      obtain ⟨-, hp, -, hpath⟩ := h.place_spec (place_of_dirs hd hparent)
      have hlen : (path vd).length = (path p).length + 1 := by rw [hpath]; simp
      dsimp only
      rw [ih p hp (by omega), hpath]

theorem Shaped.path_eq (h : s.Shaped path) (hvd : s.dirs vd ≠ none) : s.path vd = path vd :=
  pathTo_eq h _ vd hvd (h.length_lt hvd)

theorem Mounted.mirrors (h : s.Mounted path) : s.Mirrors := by
  have hset := h.settled
  have hpath : ∀ {vd}, s.dirs vd ≠ none → s.path vd = path vd := hset.shape.path_eq
  refine ⟨fun _ => ⟨?_, ?_, ?_, ?_⟩, ?_⟩
  · intro π hπ
    constructor
    · rintro ⟨vd, hvd, rfl⟩
      rw [hpath hvd] at hπ ⊢
      have hroot : vd ≠ root := fun heq => hπ ((hset.shape.path_eq_nil hvd).mpr heq)
      obtain ⟨d, hd⟩ := Option.ne_none_iff_exists'.mp hvd
      have hok := hset.dir vd d hd
      by_contra hnone
      push Not at hnone
      have hcount := hok.count
      rw [mountedBelow_eq_zero.mpr hnone, if_neg hroot] at hcount
      exact hok.pos hcount
    · rintro ⟨m, hm, hpre⟩
      obtain ⟨hdir, hmpath⟩ := hset.rootVd m hm
      rw [← hmpath] at hpre
      obtain ⟨vd, hvd, rfl⟩ := hset.shape.exists_prefix m.rootVd hdir π hpre
      exact ⟨vd, hvd, hpath hvd⟩
  · intro vd d hd
    rw [hpath (by simp [hd])]
    exact ⟨(hset.dir vd d hd).count, (hset.dir vd d hd).deleted⟩
  · intro vd d hd
    have hsub := hset.shape.children vd (by simp [hd])
    rw [subdirsOf, links_of_dirs hd, Option.elim_some] at hsub
    refine ⟨hsub.nodup, fun sub => ?_⟩
    rw [hsub.mem_iff]
    simp [place_eq_some]
  · intro vd name sub
    rw [hset.shape.inverse, place_eq_some]
  · intro vd d v hd hv
    rw [hpath (by simp [hd])]
    rcases (hset.dir vd d hd).vol v hv with hm | ⟨how, -⟩
    · exact hm
    · cases how

theorem Mounted.setLocks (h : s.Mounted path) (hd : s.dirs vd = some d) (busy : Bool)
    (users : UInt32) : (s.setDir vd { d with busy := busy, users := users }).Mounted path := by
  have hset := h.settled
  refine ⟨⟨hset.shape.congr (setDir_links hd rfl) rfl rfl, fun a d' hd' => ?_, fun m hm => ?_⟩, h.ids, h.length⟩
  · by_cases hav : a = vd
    · subst hav
      rw [setDir_self] at hd'
      cases hd'
      exact (hset.dir a d hd).of_none rfl rfl rfl
    · rw [setDir_of_ne s hav] at hd'
      exact hset.dir a d' hd'
  · obtain ⟨hdir, hpath⟩ := hset.rootVd m hm
    refine ⟨?_, hpath⟩
    by_cases hav : m.rootVd = vd
    · rw [hav, setDir_self]
      exact Option.some_ne_none _
    · rwa [setDir_of_ne s hav]

/-- A volume is taken out of the list: the directories above it count one too much. -/
theorem Mounted.unmounted (h : s.Mounted path) {m : Volume} (hm : m ∈ s.volumes) (hsafe : s.MountSafe (.unmount m.id)) :
    Settling s path (s.volumes.filter (·.id ≠ m.id)) (some m.path) := by
  have hset := h.settled
  obtain ⟨hidle, hvol⟩ := hsafe m hm rfl
  have hsame : ∀ m' ∈ s.volumes, m'.id = m.id → m' = m := fun m' hm' => inj_on_of_nodup_map h.ids hm' hm
  refine ⟨hset.shape, fun vd d hd => ?_, fun m' hm' => hset.rootVd m' (mem_of_mem_filter hm')⟩
  have hok := hset.dir vd d hd
  have hvd : s.dirs vd ≠ none := by simp [hd]
  refine ⟨hok.pos, ?_, hok.deleted, fun how => ?_, fun v hv => ?_⟩
  · have hcount := hok.count
    rw [mountedBelow_remove h.ids hm] at hcount
    rw [hcount, owes, owes]
    omega
  · by_contra hbusy
    refine hidle vd (hset.shape.bound vd hvd) d hd (Bool.not_eq_false _ ▸ hbusy) ?_
    rw [hset.shape.path_eq hvd]
    exact owes_eq_one.mp how
  · rcases hok.vol v hv with ⟨m', hm', rfl, hpath⟩ | ⟨how, -⟩
    · by_cases hid : m'.id = m.id
      · obtain rfl := hsame m' hm' hid
        obtain ⟨hdir, hroot⟩ := hset.rootVd m' hm'
        obtain rfl : m'.rootVd = vd := hset.shape.inj _ hdir _ hvd (hroot.trans hpath)
        obtain ⟨hnil, honly⟩ := hvol d hd hv
        refine Or.inr ⟨owes_eq_one.mpr (by rw [hpath]), ?_, ?_⟩
        · rintro hz
          exact hnil (hpath.trans ((hset.shape.path_eq_nil hvd).mpr hz))
        · rw [mountedBelow_eq_zero]
          intro m'' hm'' hpre
          obtain ⟨hin, hne⟩ := mem_filter.mp hm''
          exact of_decide_eq_true hne (honly m'' hin (hpath ▸ hpre))
      · exact Or.inl ⟨m', mem_filter.mpr ⟨hm', by simpa using hid⟩, rfl, hpath⟩
    · cases how

/-- A directory gets a volume, and all directories on the way to the root count it. -/
theorem addMountpoint_vol {s1 : VirtualTree} (s2 : VirtualTree) (vol : ℕ) (h : s1.Shaped path)
    (hd : s1.dirs vd = some d) (hdirs : s2.dirs = (s1.setDir vd { d with vol := some vol }).dirs)
    (hname : s2.byName = s1.byName) (hnext : s2.nextDir = s1.nextDir) :
    (addMountpoint s2.nextDir vd s2).Shaped path ∧ (addMountpoint s2.nextDir vd s2).volumes = s2.volumes ∧
    ∀ a, (addMountpoint s2.nextDir vd s2).dirs a = (s1.dirs a).map fun d =>
      { d with
        vol := if a = vd then some vol else d.vol
        nMountpoints := d.nMountpoints + if path a <+: path vd then 1 else 0 } := by
  have hlinks : s2.links = s1.links := by
    have hset : (s1.setDir vd { d with vol := some vol }).links = s1.links := setDir_links hd rfl
    rw [← hset]
    funext a
    rw [links, hdirs, links]
  have hshape : s2.Shaped path := h.congr hlinks hname hnext
  have hvd : s2.dirs vd ≠ none := by
    rw [hdirs, setDir_self]
    exact Option.some_ne_none _
  obtain ⟨hname', hnext', hvols, hdirs'⟩ := addMountpoint_spec s2.nextDir vd s2 hshape hvd (hshape.length_lt hvd)
  refine ⟨hshape.congr ?_ hname' hnext', hvols, ?_⟩
  · funext a
    rw [links, hdirs' a, Option.map_map, links]
    congr 1
    funext d
    rw [comp_apply]
    split_ifs <;> rfl
  · intro a
    rw [hdirs' a, hdirs]
    by_cases hav : a = vd
    · subst hav
      rw [setDir_self, hd, Option.map_some, Option.map_some, if_pos (prefix_refl _), if_pos rfl,
        if_pos (prefix_refl _)]
    · rw [setDir_of_ne s1 hav]
      congr 1
      funext d
      rw [if_neg hav]
      split_ifs
      · rfl
      · rw [UInt32.add_zero]

/-- The directories of the path are there, the last one gets the volume, and all of them count it. -/
theorem virtualMountpointCreate_spec (h : s.Shaped path) (vol : ℕ) (mountpoint : List UInt8) :
    ∃ path' s1 vd, Grown s s1 path path' (splitPath [] mountpoint) ∧ s1.dirs vd ≠ none ∧
    path' vd = splitPath [] mountpoint ∧ (s.virtualMountpointCreate vol mountpoint).Shaped path' ∧
    (s.virtualMountpointCreate vol mountpoint).volumes = ⟨vol, mountpoint, vd⟩ :: s.volumes ∧
    ∀ a, (s.virtualMountpointCreate vol mountpoint).dirs a = (s1.dirs a).map fun d =>
      { d with
        vol := if a = vd then some vol else d.vol
        nMountpoints := d.nMountpoints + if path' a <+: splitPath [] mountpoint then 1 else 0 } := by
  obtain ⟨path', hgrown, hvd, hpath⟩ := createPath_grown (splitPath [] mountpoint) root s path h h.root.1
    (by rw [h.rootPath, nil_append])
  rw [virtualMountpointCreate]
  generalize createPath (splitPath [] mountpoint) root s = r at hgrown hvd hpath
  obtain ⟨s1, vd⟩ := r
  dsimp only at hgrown hvd hpath ⊢
  obtain ⟨d, hd⟩ := Option.ne_none_iff_exists'.mp hvd
  rw [modifyDir_eq hd]
  obtain ⟨hshape, hvols, hdirs⟩ := addMountpoint_vol
    { s1.setDir vd { d with vol := some vol } with volumes := ⟨vol, mountpoint, vd⟩ :: s1.volumes }
    vol hgrown.shape hd rfl rfl rfl
  rw [hpath] at hdirs
  exact ⟨path', s1, vd, hgrown, hvd, hpath, hshape, hvols.trans (congrArg _ hgrown.volumes), hdirs⟩

theorem Grown.mountedBelow_new {target : List Name} (hset : Settling s path vols none)
    (hgrown : Grown s s' path path' target) {a : ℕ} (ha : s.dirs a = none) (ha' : s'.dirs a ≠ none) :
    mountedBelow vols (path' a) = 0 := by
  rw [mountedBelow_eq_zero]
  intro m hm hpre
  obtain ⟨hdir, hmpath⟩ := hset.rootVd m hm
  rw [← hmpath] at hpre
  obtain ⟨b, hb, hpathb⟩ := hset.shape.exists_prefix _ hdir _ hpre
  obtain ⟨db, hdb⟩ := Option.ne_none_iff_exists'.mp hb
  obtain ⟨hpathb', db', hdb', -⟩ := hgrown.old b db hdb
  obtain rfl : a = b := hgrown.shape.inj a ha' b (by simp [hdb']) (hpathb.symm.trans hpathb'.symm)
  rw [ha] at hdb
  cases hdb

/-- After the directories of a path are created each one counts what it did before, or nothing. -/
theorem Grown.dir {target : List Name} (hset : Settling s path vols none) (hgrown : Grown s s' path path' target)
    {a : ℕ} (hd : s'.dirs a = some d) :
    d.nMountpoints.toNat = mountedBelow vols (path' a) + (if a = root then 1 else 0) ∧ d.deleted = 0 ∧
    (∀ v, d.vol = some v → ∃ m ∈ vols, m.id = v ∧ m.path = path' a) ∧
    (d.nMountpoints.toNat = 0 → path' a <+: target) := by
  cases hda : s.dirs a with
  | none =>
    obtain ⟨hvol, hn, hdel, hpre⟩ := hgrown.new a d hda hd
    have hroot : a ≠ root := by
      rintro rfl
      exact hset.shape.root.1 hda
    refine ⟨?_, hdel, fun v hv => ?_, fun _ => hpre⟩
    · rw [hn, hgrown.mountedBelow_new hset hda (by simp [hd]), if_neg hroot]
      rfl
    · rw [hvol] at hv
      cases hv
  | some da =>
    obtain ⟨hpa, d1, hd1, hsame⟩ := hgrown.old a da hda
    obtain rfl : d1 = d := Option.some.inj (hd1.symm.trans hd)
    have hok := hset.dir a da hda
    rw [hpa, hsame.nMountpoints]
    refine ⟨hok.count, hsame.deleted.trans hok.deleted, fun v hv => ?_, fun hzero => absurd hzero hok.pos⟩
    rcases hok.vol v (hsame.vol.symm.trans hv) with hm | ⟨how, -⟩
    · exact hm
    · cases how

theorem Mounted.mount (h : s.Mounted path) {vol : ℕ} {mountpoint : List UInt8} (hvol : vol ∉ s.volumes.map Volume.id)
    (hlen : s.volumes.length + 2 < 2 ^ 32) : ∃ path', (s.virtualMountpointCreate vol mountpoint).Mounted path' := by
  have hset := h.settled
  obtain ⟨path', s1, vd, hgrown, hvd, hpath, hshape, hvols, hdirs⟩ :=
    virtualMountpointCreate_spec hset.shape vol mountpoint
  generalize s.virtualMountpointCreate vol mountpoint = s' at hshape hvols hdirs
  refine ⟨path', ⟨hshape, fun a d' hd' => ?_, fun m hm => ?_⟩, ?_, ?_⟩
  · rw [hdirs a] at hd'
    obtain ⟨d1, hd1, rfl⟩ := Option.map_eq_some_iff.mp hd'
    obtain ⟨hcount, hdel, hvol1, hnew⟩ := hgrown.dir hset hd1
    have hadd : (d1.nMountpoints + if path' a <+: splitPath [] mountpoint then 1 else 0).toNat =
        d1.nMountpoints.toNat + if path' a <+: splitPath [] mountpoint then 1 else 0 := by
      have hle := mountedBelow_le s.volumes (path' a)
      split_ifs
      · rw [UInt32.toNat_add, UInt32.toNat_one, Nat.mod_eq_of_lt (by split_ifs at hcount <;> omega)]
      · rw [UInt32.add_zero, add_zero]
    have hmpath : (⟨vol, mountpoint, vd⟩ : Volume).path = splitPath [] mountpoint := rfl
    rw [hvols]
    refine ⟨?_, ?_, hdel, (fun how => by cases how), fun v hv => Or.inl ?_⟩
    · rw [hadd]
      split_ifs with hpre
      · omega
      · exact fun hzero => hpre (hnew hzero)
    · rw [hadd, hcount, mountedBelow_cons, hmpath, owes]
      omega
    · dsimp only at hv
      split_ifs at hv with hav
      · cases hv
        exact ⟨_, mem_cons_self, rfl, by rw [hav, hpath]; rfl⟩
      · obtain ⟨m, hm, hid, hmp⟩ := hvol1 v hv
        exact ⟨m, mem_cons_of_mem _ hm, hid, hmp⟩
  · rw [hdirs, Ne, Option.map_eq_none_iff]
    rw [hvols] at hm
    rcases mem_cons.mp hm with rfl | hm
    · exact ⟨hvd, hpath⟩
    · obtain ⟨hdir, hmpath⟩ := hset.rootVd m hm
      obtain ⟨da, hda⟩ := Option.ne_none_iff_exists'.mp hdir
      obtain ⟨hpa, d1, hd1, -⟩ := hgrown.old _ da hda
      exact ⟨by simp [hd1], hpa.trans hmpath⟩
  · rw [hvols, map_cons, nodup_cons]
    exact ⟨hvol, h.ids⟩
  · rw [hvols, length_cons]
    exact hlen

theorem Mounted.unmount (h : s.Mounted path) {m : Volume} (hm : m ∈ s.volumes) (hsafe : s.MountSafe (.unmount m.id)) :
    ({ s.virtualDirDestroy m.rootVd with
      volumes := (s.virtualDirDestroy m.rootVd).volumes.filter (·.id ≠ m.id) } : VirtualTree).Mounted path := by
  obtain ⟨hdir, hpath⟩ := h.settled.rootVd m hm
  have hpending := h.unmounted hm hsafe
  rw [← hpath] at hpending
  obtain ⟨hset, hvols⟩ := destroyLoop_settles s.nextDir m.rootVd s hpending hdir (h.settled.shape.length_lt hdir)
  rw [← virtualDirDestroy] at hset hvols
  refine ⟨?_, ?_, ?_⟩
  · rw [hvols]
    exact ⟨hset.shape, hset.dir, hset.rootVd⟩
  · rw [hvols]
    exact h.ids.sublist (filter_sublist.map _)
  · rw [hvols]
    exact (Nat.add_le_add_right (length_filter_le ..) 1).trans_lt h.length

theorem Mounted.step (h : s.Mounted path) {e : Event} (hsafe : s.MountSafe e) (hst : s.step e = some s') :
    ∃ path', s'.Mounted path' := by
  cases e with
  | mount vol mountpoint =>
    rw [VirtualTree.step] at hst
    split_ifs at hst with hvol
    cases hst
    exact h.mount hvol hsafe
  | unmount vol =>
    rw [VirtualTree.step] at hst
    cases hfind : s.volumes.find? (·.id = vol) with
    | none => simp [hfind] at hst
    | some m =>
      obtain rfl : m.id = vol := by simpa using find?_some hfind
      rw [hfind] at hst
      cases hst
      exact ⟨path, h.unmount (mem_of_find?_eq_some hfind) hsafe⟩
  | lock vd =>
    rw [VirtualTree.step] at hst
    cases hd : s.dirs vd with
    | none => simp [hd] at hst
    | some d =>
      rw [hd] at hst
      dsimp only at hst
      split_ifs at hst
      cases hst
      exact ⟨path, h.setLocks hd true (d.users + 1)⟩
  | unlock vd =>
    rw [VirtualTree.step] at hst
    cases hd : s.dirs vd with
    | none => simp [hd] at hst
    | some d =>
      rw [hd] at hst
      -- no removal waits for the end of the lock
      have hdel : ¬ 0 < d.deleted := by
        rw [(h.settled.dir vd d hd).deleted]
        decide
      dsimp only at hst
      split_ifs at hst <;> cases hst
      · exact ⟨path, h.setLocks hd false (d.users - 1)⟩
      · exact ⟨path, h.setLocks hd d.busy (d.users - 1)⟩

theorem start_mounted : start.Mounted fun _ => [] := by
  have hdirs : ∀ a d, start.dirs a = some d → a = root ∧ d = ⟨⟨none, [], [], 0⟩, none, 1, false, 0, 0⟩ := by
    intro a d hd
    by_cases ha : a = root
    · subst ha
      exact ⟨rfl, (Option.some.inj hd).symm⟩
    · simp only [start, update_of_ne ha] at hd
      cases hd
  have hroot : ∀ a, start.dirs a ≠ none → a = root := by
    intro a ha
    obtain ⟨d, hd⟩ := Option.ne_none_iff_exists'.mp ha
    exact (hdirs a d hd).1
  have hplace : ∀ a, start.place a = none := by
    intro a
    by_cases ha : a = root
    · subst ha
      rfl
    · simp [place, links, start, ha]
  have hshape : start.Shaped fun _ => [] := by
    constructor
    case root => exact ⟨Option.some_ne_none _, rfl⟩
    case rootPath => rfl
    case placed =>
      intro a ha hne
      exact absurd (hroot a ha) hne
    case dead => exact fun a _ => hplace a
    case bound =>
      intro a ha
      rw [hroot a ha]
      exact Nat.zero_lt_one
    case inverse =>
      intro p a
      rw [hplace]
      exact iff_of_false (Option.some_ne_none a).symm (Option.some_ne_none p).symm
    case children =>
      intro p hp
      rw [hroot p hp]
      exact holds_nil fun a ha => by simp [hplace] at ha
  refine ⟨⟨hshape, fun a d hd => ?_, fun m hm => ?_⟩, nodup_nil, by decide⟩
  · obtain ⟨rfl, rfl⟩ := hdirs a d hd
    exact ⟨by decide, rfl, rfl, fun _ => rfl, fun v hv => by cases hv⟩
  · cases hm

theorem mounts_mirrored (es : List Event)
    (hsafe : ∀ x ∈ Runs.taken step start es, x.1.MountSafe x.2) :
    ∀ s ∈ Runs.visited step start es, s.Mirrors := by
  intro s hs
  have hstep : ∀ (s : VirtualTree) e s', (∃ path, s.Mounted path) → s.MountSafe e → s.step e = some s' →
      ∃ path', s'.Mounted path' := by
    rintro s e s' ⟨path, h⟩ hc hst
    exact h.step hc hst
  obtain ⟨path, h⟩ := Runs.visited_inv hstep es start ⟨_, start_mounted⟩ hsafe s hs
  exact h.mirrors

/-- The volumes 1 at `/a/b` and 2 at `/a/c`; the first one is in use for a while, and both go. -/
def mountRun : List Event :=
  [.mount 1 [47, 97, 47, 98], .mount 2 [47, 97, 47, 99], .lock 2, .unlock 2, .unmount 1, .unmount 2]

theorem mounts_mirrored_run : ∃ s, Runs.run step start mountRun = some s ∧ s.Mirrors := by
  obtain ⟨s, hrun⟩ : ∃ s, Runs.run step start mountRun = some s := ⟨_, rfl⟩
  refine ⟨s, hrun, mounts_mirrored mountRun ?_ s (Runs.mem_visited_of_run _ hrun)⟩
  decide +kernel

/-- The volume 1 at `/a` goes while 2 at `/a/b` stays. -/
def unmountAbove : List Event := [.mount 1 [47, 97], .mount 2 [47, 97, 47, 98], .unmount 1]

/-- The volume at `/a/b` goes while `/a` is in use. -/
def unmountBusy : List Event :=
  [.mount 1 [47, 97], .mount 2 [47, 97, 47, 98], .lock 1, .unmount 2, .unlock 1]

/-- The volumes at `/a/b/c` and `/a/b/d` go while `/a` and `/a/b` are in use. -/
def unmountTwice : List Event :=
  [.mount 1 [47, 97], .mount 2 [47, 97, 47, 98], .mount 3 [47, 97, 47, 98, 47, 99], .mount 4 [47, 97, 47, 98, 47, 100],
    .lock 1, .lock 2, .unmount 3, .unmount 4, .unlock 2, .unlock 1]

theorem mounts_not_mirrored :
    (∃ s, Runs.run step start unmountAbove = some s ∧ ¬ s.VolOk) ∧
    (∃ s, Runs.run step start unmountBusy = some s ∧ ¬ s.Mirrors) ∧
    ∃ s, Runs.run step start unmountTwice = some s ∧ ¬ s.Mirrors := by
  refine ⟨?_, ?_, ?_⟩
  · obtain ⟨s, hrun, hd, hvols⟩ : ∃ s, Runs.run step start unmountAbove = some s ∧
        (s.dirs 1).bind VirtualDir.vol = some 1 ∧ s.volumes.map Volume.id = [2] :=
      ⟨_, rfl, by decide +kernel, by decide +kernel⟩
    refine ⟨s, hrun, fun hok => ?_⟩
    obtain ⟨d, hd, hv⟩ := Option.bind_eq_some_iff.mp hd
    obtain ⟨m, hm, hid, -⟩ := hok 1 d 1 hd hv
    have hmem := mem_map_of_mem (f := Volume.id) hm
    rw [hvols, hid] at hmem
    exact absurd hmem (by decide)
  · obtain ⟨s, hrun, hidle, hd⟩ : ∃ s, Runs.run step start unmountBusy = some s ∧
        (∀ vd d, s.dirs vd = some d → d.busy = false) ∧ (s.dirs 1).map VirtualDir.deleted = some 1 := by
      refine ⟨_, rfl, ?_, by decide +kernel⟩
      intro vd d hd
      rcases vd with _ | _ | _ | vd <;> cases hd <;> rfl
    refine ⟨s, hrun, fun hok => ?_⟩
    obtain ⟨d, hd, hdel⟩ := Option.map_eq_some_iff.mp hd
    rw [((hok.1 hidle).count 1 d hd).2] at hdel
    cases hdel
  · obtain ⟨s, hrun, hidle, hd, hbelow⟩ : ∃ s, Runs.run step start unmountTwice = some s ∧
        (∀ vd d, s.dirs vd = some d → d.busy = false) ∧ (s.dirs 1).map VirtualDir.nMountpoints = some 3 ∧
        mountedBelow s.volumes (s.path 1) = 2 := by
      refine ⟨_, rfl, ?_, by decide +kernel, by decide +kernel⟩
      intro vd d hd
      rcases vd with _ | _ | _ | _ | _ | vd <;> cases hd <;> rfl
    refine ⟨s, hrun, fun hok => ?_⟩
    obtain ⟨d, hd, hn⟩ := Option.map_eq_some_iff.mp hd
    have hcount := ((hok.1 hidle).count 1 d hd).1
    rw [hn, hbelow] at hcount
    cases hcount

end VirtualTree

end ZFS.Virtual
