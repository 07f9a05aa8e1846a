import ZlomekFS.Spec.VolumeTables

/-! The tables of the volumes hold the volumes that are not freed, until one is destroyed while it has a name. -/

namespace ZFS.Volumes
open Function Tables

namespace State

variable {s s' : State} {vol : ℕ} {v v' : Volume}

theorem setVolume_idOf : (s.setVolume vol v).idOf = Function.update s.idOf vol (some v.id) := by
  funext a
  simp only [idOf, setVolume, update_apply]
  split_ifs <;> rfl

theorem setVolume_nameOf : (s.setVolume vol v).nameOf = Function.update s.nameOf vol v.name := by
  funext a
  simp only [nameOf, setVolume, update_apply]
  split_ifs <;> rfl

section live

variable (h : s.Right) (hv : s.volumes vol = some v)
include h hv

omit h in
theorem idOf_eq : s.idOf vol = some v.id := by rw [idOf, hv, Option.map_some]

omit h in
theorem nameOf_eq : s.nameOf vol = v.name := by rw [nameOf, hv, Option.bind_some]

theorem Right.setVolume_byId (hid : v'.id = v.id) : Inverse s.byId (s.setVolume vol v').idOf := by
  rw [setVolume_idOf, hid, ← idOf_eq hv, update_eq_self]
  exact h.byId

theorem Right.clearName :
    (s.clearName vol v).Right ∧ (s.clearName vol v).volumes vol = some { v with name := none } := by
  cases hname : v.name with
  | none =>
    simp only [State.clearName, hname]
    rw [hv, ← hname]
    exact ⟨h, rfl⟩
  | some old =>
    simp only [State.clearName, hname]
    have herase := h.byName.erase ((nameOf_eq hv).trans hname)
    refine ⟨⟨h.setVolume_byId hv rfl, ?_⟩, update_self ..⟩
    exact setVolume_nameOf (v := { v with name := none }) ▸ herase

theorem Right.setCommonInfo (name mountpoint : List UInt8) : (s.volumeSetCommonInfo vol v name mountpoint).Right := by
  unfold volumeSetCommonInfo
  split_ifs with hsame
  · refine ⟨h.setVolume_byId hv rfl, ?_⟩
    rw [setVolume_nameOf, ← nameOf_eq hv, update_eq_self]
    exact h.byName
  · obtain ⟨hclear, hv'⟩ := h.clearName hv
    dsimp only
    split
    case _ => exact hclear
    case _ hfree =>
      have hput := hclear.byName.insert hfree (nameOf_eq hv')
      refine ⟨hclear.setVolume_byId hv' rfl, ?_⟩
      exact setVolume_nameOf (v := { v with name := some name, mountpoint := mountpoint }) ▸ hput

/-- The volume that is looked up again is the one that is destroyed. -/
theorem Right.volumeDestroy_eq (rootDentry : Bool) : s.volumeDestroy vol v rootDentry =
    { s with volumes := Function.update s.volumes vol none, byId := Function.update s.byId v.id none } := by
  have hlookup := (h.byId v.id vol).mpr (idOf_eq hv)
  cases rootDentry <;> simp [volumeDestroy, free, hlookup, hv]

theorem Right.destroy (rootDentry : Bool) : (s.volumeDestroy vol v rootDentry).Right ↔ s.nameOf vol = none := by
  rw [h.volumeDestroy_eq hv]
  set s' : State := { s with volumes := Function.update s.volumes vol none, byId := Function.update s.byId v.id none } with hs'
  have hids : s'.idOf = Function.update s.idOf vol none := by
    funext a
    simp only [hs', idOf, update_apply]
    split_ifs <;> rfl
  have hnames : s'.nameOf = Function.update s.nameOf vol none := by
    funext a
    simp only [hs', nameOf, update_apply]
    split_ifs <;> rfl
  constructor
  · intro h'
    cases hname : s.nameOf vol with
    | none => rfl
    | some name =>
      have hgone := (h'.byName name vol).mp ((h.byName name vol).mpr hname)
      rw [hnames, update_self] at hgone
      cases hgone
  · intro hname
    refine ⟨hids ▸ h.byId.erase (idOf_eq hv), ?_⟩
    rw [hnames, ← hname, update_eq_self]
    exact h.byName

end live

/-! ## Runs -/

def Fresh (s : State) : Prop := ∀ vol, s.next ≤ vol → s.volumes vol = none

theorem Right.create (h : s.Right) (hfresh : s.Fresh) (id : UInt32) : (s.volumeCreate id).Right ↔ s.byId id = none := by
  have hnone := hfresh s.next le_rfl
  have hids : (s.volumeCreate id).idOf = Function.update s.idOf s.next (some id) := setVolume_idOf
  have hnext : s.idOf s.next = none := by rw [idOf, hnone, Option.map_none]
  constructor
  · intro h'
    cases hid : s.byId id with
    | none => rfl
    | some vol =>
      -- the new volume is found in place of the old one
      have hold := (h.byId id vol).mp hid
      have hne : vol ≠ s.next := by
        rintro rfl
        rw [hnext] at hold
        cases hold
      have hfound := (h'.byId id vol).mpr (by rw [hids, update_of_ne hne]; exact hold)
      exact absurd (Option.some.inj ((update_self id _ s.byId).symm.trans hfound)).symm hne
  · intro hid
    refine ⟨hids ▸ h.byId.insert hid hnext, ?_⟩
    have hnames : (s.volumeCreate id).nameOf = s.nameOf := by
      refine setVolume_nameOf.trans (update_eq_self_iff.mpr ?_)
      rw [nameOf, hnone, Option.bind_none]
    rw [hnames]
    exact h.byName

theorem Right.step (h : s.Right) (hfresh : s.Fresh) {e : Event} (hs : s.step e = some s') : s'.Right ↔ s.Safe e := by
  cases e with
  | create id =>
    obtain rfl := Option.some.inj hs
    exact h.create hfresh id
  | setCommonInfo vol name mountpoint =>
    obtain ⟨v, hv, rfl⟩ := Option.map_eq_some_iff.mp hs
    exact iff_of_true (h.setCommonInfo hv name mountpoint) trivial
  | destroy vol rootDentry =>
    obtain ⟨v, hv, rfl⟩ := Option.map_eq_some_iff.mp hs
    exact h.destroy hv rootDentry

theorem Fresh.setVolume (h : s.Fresh) (hv : s.volumes vol = some v) (v' : Volume) : (s.setVolume vol v').Fresh := by
  intro a ha
  have hne : a ≠ vol := by
    rintro rfl
    rw [h a ha] at hv
    cases hv
  exact (update_of_ne hne ..).trans (h a ha)

theorem Fresh.step (h : s.Fresh) (hr : s.Right) {e : Event} (hs : s.step e = some s') : s'.Fresh := by
  cases e with
  | create id =>
    obtain rfl := Option.some.inj hs
    intro a ha
    have hlt : s.next < a := ha
    exact (update_of_ne hlt.ne' ..).trans (h a hlt.le)
  | setCommonInfo vol name mountpoint =>
    obtain ⟨v, hv, rfl⟩ := Option.map_eq_some_iff.mp hs
    have hclear : (s.clearName vol v).Fresh := by
      unfold clearName
      split
      · exact h
      · exact h.setVolume hv _
    unfold volumeSetCommonInfo
    split_ifs
    · exact h.setVolume hv _
    · dsimp only
      split
      · exact hclear
      · exact hclear.setVolume (hr.clearName hv).2 _
  | destroy vol rootDentry =>
    obtain ⟨v, hv, rfl⟩ := Option.map_eq_some_iff.mp hs
    rw [hr.volumeDestroy_eq hv]
    intro a ha
    simp only [update_apply]
    split_ifs
    · rfl
    · exact h a ha

end State

/-- In every run the tables are right in all states if and only if each event is safe in the state in which it
happens. -/
theorem volumeTables_right_iff (es : List Event) :
    (∀ x ∈ Runs.visited State.step State.start es, x.Right) ↔
      ∀ x ∈ Runs.taken State.step State.start es, x.1.Safe x.2 := by
  refine Runs.visited_iff_taken (I := State.Fresh) (fun s e s' hi h _ hs => hi.step h hs)
    (fun s e s' hi h hs => h.step hi hs) es _ (fun _ _ => rfl) ⟨?_, ?_⟩
  · exact fun _ _ => iff_of_false nofun nofun
  · exact fun _ _ => iff_of_false nofun nofun

/-- A volume gets the name `v` and is destroyed; the table by name still has it. -/
theorem volumeTables_dangling : ¬ ∀ x ∈ Runs.visited State.step State.start
    [.create 1, .setCommonInfo 0 [118] [47], .destroy 0 false], x.Right := by
  intro h
  have hrun : (Runs.run State.step State.start [.create 1, .setCommonInfo 0 [118] [47], .destroy 0 false]).map
      (fun s => (s.byName [118], s.nameOf 0)) = some (some 0, none) := by rfl
  obtain ⟨s, hs, heq⟩ := Option.map_eq_some_iff.mp hrun
  obtain ⟨hfound, hname⟩ := Prod.mk.inj heq
  have hlive := ((h s (Runs.mem_visited_of_run _ hs)).byName _ _).mp hfound
  rw [hname] at hlive
  cases hlive

end ZFS.Volumes
