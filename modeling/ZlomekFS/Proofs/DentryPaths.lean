import ZlomekFS.Spec.DentryPaths

/-! A local path leads back to its dentry unless it is the path of the root of the volume: there is no name in it, so
that `dentry_lookup_path` comes to its end with a null pointer. -/

namespace ZFS.Dcache.VolumeDentries
open Components

variable {V : VolumeDentries} {d p : ℕ} {e : Dentry}

/-! ## Lookups -/

theorem byName_of_dentry (he : V.dentry d = some e) (hp : e.parent = some p) : V.byName (p, e.name) = some d :=
  (V.table p e.name d).mpr ⟨e, he, hp, rfl⟩

theorem byName_nil (p : ℕ) : V.byName (p, []) = none := by
  rw [Option.eq_none_iff_forall_ne_some]
  intro d h
  obtain ⟨e, he, hp, hname⟩ := (V.table p [] d).mp h
  exact (V.names d e he (by simp [hp])).1 hname

theorem walkPath_eq {start : ℕ} {dentry : Option ℕ} {names : List Name} (h : names ≠ []) :
    V.walkPath start dentry names =
      match names.foldlM (fun d name => (V.byName (d, name)).bind V.enter) start with
      | none => .missing
      | some d => .found d := by
  induction names generalizing start dentry with
  | nil => exact absurd rfl h
  | cons name rest ih =>
    rw [walkPath, List.foldlM_cons]
    cases (V.byName (start, name)).bind V.enter with
    | none => rfl
    | some d =>
      cases rest with
      | nil => rfl
      | cons next rest => exact ih (by simp)

theorem lookup_append (rel : Name) :
    V.dentryLookupLocalPath (V.localPath ++ rel) =
      match V.position [] with
      | none => .missing
      | some start => V.walkPath start none (scan SLASH .start rel) := by
  simp only [dentryLookupLocalPath, localPathToRelativePath, List.drop_left, dentryLookupPath, Option.none_or]
  cases h : V.rootDentry.bind V.enter <;> simp [position, h]

/-- With a name in the path the lookup is that of the position. -/
theorem lookup_of_ne_nil {rel : Name} (h : rel ≠ []) :
    V.dentryLookupLocalPath (V.localPath ++ rel) =
      match V.position (scan SLASH .start rel) with
      | none => .missing
      | some d => .found d := by
  rw [lookup_append]
  unfold position
  cases V.rootDentry.bind V.enter with
  | none => rfl
  | some start => exact walkPath_eq (scan_ne_nil .start (Or.inr h))

theorem position_append (names : List Name) (name : Name) :
    V.position (names ++ [name]) = (V.position names).bind fun d => (V.byName (d, name)).bind V.enter := by
  unfold position
  cases V.rootDentry.bind V.enter with
  | none => rfl
  | some start => simp [List.foldlM_append]

theorem lookupRight_iff (rel : Name) : V.LookupRight rel ↔ rel ≠ [] ∨ V.position [] = none := by
  by_cases hrel : rel = []
  · subst hrel
    unfold LookupRight
    rw [lookup_append]
    cases V.position [] <;> simp [scan, walkPath]
  · simp only [hrel, ne_eq, not_false_eq_true, true_or, iff_true]
    unfold LookupRight
    rw [lookup_of_ne_nil hrel]
    cases hpos : V.position (scan SLASH .start rel) with
    | none => trivial
    | some d =>
      rcases @scan_start _ _ SLASH rel with hscan | hscan
      · rw [← hscan]
        exact hpos
      · rw [hscan, position_append] at hpos
        simp [byName_nil] at hpos

/-! ## Paths -/

theorem namesUp_mono {m n : ℕ} (hm : V.depth d < m) (hn : V.depth d < n) : V.namesUp m d = V.namesUp n d := by
  induction m generalizing n d with
  | zero => omega
  | succ m ih =>
    obtain ⟨n, rfl⟩ := Nat.exists_eq_add_of_le' (Nat.one_le_of_lt hn)
    unfold namesUp
    cases he : V.dentry d with
    | none => rfl
    | some e =>
      cases hp : e.parent with
      | none => simp only [hp]
      | some p =>
        have hlt := V.above d e p he hp
        simp only [hp, ih (d := p) (n := n) (by omega) (by omega)]

def namesOf (V : VolumeDentries) (d : ℕ) : List Name := V.namesUp (V.depth d + 1) d

theorem namesOf_root (he : V.dentry d = some e) (hp : e.parent = none) : V.namesOf d = [] := by
  simp [namesOf, namesUp, he, hp]

theorem namesOf_child (he : V.dentry d = some e) (hp : e.parent = some p) :
    V.namesOf d = if V.isConflictDir p then V.namesOf p else V.namesOf p ++ [e.name] := by
  have hlt := V.above d e p he hp
  rw [namesOf, namesUp, he]
  simp only [hp, namesOf, namesUp_mono (show V.depth p < V.depth d from hlt) (Nat.lt_succ_self _)]

theorem namesOf_valid (d : ℕ) : ∀ name ∈ V.namesOf d, name ≠ [] ∧ SLASH ∉ name := by
  have hup : ∀ n d, ∀ name ∈ V.namesUp n d, name ≠ [] ∧ SLASH ∉ name := by
    intro n
    induction n with
    | zero => intro d name h; cases h
    | succ n ih =>
      intro d name h
      unfold namesUp at h
      cases he : V.dentry d with
      | none => rw [he] at h; cases h
      | some e =>
        cases hp : e.parent with
        | none => simp [he, hp] at h
        | some p =>
          simp only [he, hp] at h
          split_ifs at h
          · exact ih p name h
          · rcases List.mem_append.mp h with h | h
            · exact ih p name h
            · rw [List.mem_singleton.mp h]
              exact V.names d e he (by simp [hp])
  exact hup _ d

theorem isConflictDir_of_local (he : V.dentry d = some e) (hlocal : hasLocalPath V.thisNode e.fh) : V.isConflictDir d = false := by
  have hsid : e.fh.sid ≠ NODE_ID_NONE := hlocal.1 ▸ V.thisNode_ne
  simp [isConflictDir, he, conflictDirP, hsid]

theorem enter_of_local (he : V.dentry d = some e) (hlocal : hasLocalPath V.thisNode e.fh) : V.enter d = some d := by
  simp [enter, isConflictDir_of_local he hlocal]

theorem enter_conflict {q : Dentry} (hq : V.dentry p = some q) (hconflict : conflictDirP q.fh = true)
    (he : V.dentry d = some e) (hp : e.parent = some p) (hname : e.name = V.thisName) : V.enter p = some d := by
  simp only [enter, isConflictDir, hq, Option.any_some, hconflict, if_true, ← hname, byName_of_dentry he hp]

theorem position_namesOf (he : V.dentry d = some e) (hlocal : hasLocalPath V.thisNode e.fh) :
    V.position (V.namesOf d) = some d := by
  induction hn : V.depth d using Nat.strong_induction_on generalizing d e with
  | _ n ih =>
    cases hp : e.parent with
    | none =>
      rw [namesOf_root he hp]
      simp [position, (V.root d).mpr ⟨e, he, hp⟩, enter_of_local he hlocal]
    | some p =>
      have hlt := V.above d e p he hp
      obtain ⟨q, hq, hlocal' | ⟨hconflict, hname, hparent⟩⟩ := V.inLocal d e p he hlocal hp
      · rw [namesOf_child he hp, isConflictDir_of_local hq hlocal', if_neg Bool.false_ne_true, position_append,
          ih _ (by omega) hq hlocal' rfl, Option.bind_some, byName_of_dentry he hp, Option.bind_some, enter_of_local he hlocal]
      · have hdir : V.isConflictDir p = true := by simp [isConflictDir, hq, hconflict]
        rw [namesOf_child he hp, hdir, if_pos rfl]
        have henter := enter_conflict hq hconflict he hp hname
        cases hpp : q.parent with
        | none =>
          rw [namesOf_root hq hpp]
          simp [position, (V.root p).mpr ⟨q, hq, hpp⟩, henter]
        | some pp =>
          obtain ⟨r, hr, hrlocal⟩ := hparent pp hpp
          have hlt' := V.above p q pp hq hpp
          rw [namesOf_child hq hpp, isConflictDir_of_local hr hrlocal, if_neg Bool.false_ne_true, position_append,
            ih _ (by omega) hr hrlocal rfl, Option.bind_some, byName_of_dentry hq hpp, Option.bind_some, henter]

theorem namesOf_position_nil (h : V.position [] = some d) : V.namesOf d = [] := by
  obtain ⟨start, hstart, hd⟩ := Option.bind_eq_some_iff.mp h
  obtain ⟨r, hr, henter⟩ := Option.bind_eq_some_iff.mp hstart
  obtain ⟨q, hq, hparent⟩ := (V.root r).mp hr
  obtain rfl := Option.some.inj hd
  unfold enter at henter
  split_ifs at henter with hconflict
  · obtain ⟨e, he, hp, -⟩ := (V.table r V.thisName start).mp henter
    rw [namesOf_child he hp, if_pos hconflict, namesOf_root hq hparent]
  · obtain rfl := Option.some.inj henter
    exact namesOf_root hq hparent

theorem roundTrip_iff (he : V.dentry d = some e) (hlocal : hasLocalPath V.thisNode e.fh) :
    V.RoundTrip d ↔ V.position [] ≠ some d := by
  have hposition := position_namesOf he hlocal
  have hscan : scan SLASH .start (path SLASH (V.namesOf d)) = V.namesOf d := scan_path (namesOf_valid d)
  have hbuild : V.buildLocalPath d = V.localPath ++ path SLASH (V.namesOf d) := rfl
  by_cases hnames : V.namesOf d = []
  · rw [hnames] at hposition
    simp only [hposition, ne_eq, not_true, iff_false]
    rintro ⟨d', hfound, -⟩
    rw [hbuild, lookup_append, hposition, hscan, hnames] at hfound
    cases hfound
  · have hne : path SLASH (V.namesOf d) ≠ [] := by
      intro hpath
      rw [hpath] at hscan
      exact hnames hscan.symm
    refine ⟨fun _ hroot => hnames (namesOf_position_nil hroot), fun _ => ⟨d, ?_, rfl⟩⟩
    rw [hbuild, lookup_of_ne_nil hne, hscan, hposition]

end ZFS.Dcache.VolumeDentries

namespace ZFS.Dcache

/-- Paths in a volume are looked up right unless they are the path of the volume itself, and dentries are found again
unless they are in the place of the root. -/
theorem localPath_iff (V : VolumeDentries) :
    (∀ rel, V.LookupRight rel ↔ rel ≠ [] ∨ V.position [] = none) ∧
      ∀ d e, V.dentry d = some e → hasLocalPath V.thisNode e.fh → (V.RoundTrip d ↔ V.position [] ≠ some d) :=
  ⟨VolumeDentries.lookupRight_iff, fun _ _ => VolumeDentries.roundTrip_iff⟩

/-- A volume at `/v` with a directory `d`, in which the file `f` is in conflict: the local file `n` and `m` of node 2. -/
def conflictBelow : VolumeDentries where
  localPath := [47, 118]
  thisNode := 1
  thisName := [110]
  rootDentry := some 0
  dentry d :=
    if d = 0 then some ⟨none, [], ⟨1, 5, 1, 1, 1⟩⟩ else if d = 1 then some ⟨some 0, [100], ⟨1, 5, 1, 2, 1⟩⟩
    else if d = 2 then some ⟨some 1, [102], ⟨0, 5, 0, 3, 0⟩⟩ else if d = 3 then some ⟨some 2, [110], ⟨1, 5, 1, 4, 1⟩⟩
    else if d = 4 then some ⟨some 2, [109], ⟨2, 5, 1, 4, 1⟩⟩ else none
  byName x :=
    if x = (0, [100]) then some 1 else if x = (1, [102]) then some 2 else if x = (2, [110]) then some 3
    else if x = (2, [109]) then some 4 else none
  depth d := d
  thisNode_ne := by decide
  table p n d := by
    constructor
    · intro h
      split_ifs at h <;> obtain rfl := Option.some.inj h <;> simp_all
    · rintro ⟨e, he, hp, hn⟩
      split_ifs at he <;> grind
  above d e p he hp := by grind
  root d := by
    constructor
    · rintro ⟨⟩
      exact ⟨_, rfl, rfl⟩
    · grind
  names d e he hp := by grind [SLASH]
  inLocal d e p he hl hp := by grind [hasLocalPath, conflictDirP, VOLUME_ID_VIRTUAL, NODE_ID_NONE]

example : conflictBelow.buildLocalPath 3 = [47, 118, 47, 100, 47, 102] ∧ conflictBelow.RoundTrip 3 :=
  ⟨by decide, 3, by decide, rfl⟩

/-- A volume at `/v` with only its root in the cache. -/
def rootOnly : VolumeDentries where
  localPath := [47, 118]
  thisNode := 1
  thisName := [110]
  rootDentry := some 0
  dentry d := if d = 0 then some ⟨none, [], ⟨1, 5, 1, 1, 1⟩⟩ else none
  byName _ := none
  depth d := d
  thisNode_ne := by decide
  table p n d := by simp
  above d e p he hp := by grind
  root d := by simp; grind
  names d e he hp := by grind
  inLocal d e p he _ hp := by grind

/-- The path of the root is `/v`, and the lookup of it goes through a null pointer. -/
theorem rootOnly_wrong :
    hasLocalPath rootOnly.thisNode ⟨1, 5, 1, 1, 1⟩ ∧ rootOnly.buildLocalPath 0 = [47, 118] ∧
      rootOnly.dentryLookupLocalPath [47, 118] = .nullDereference ∧ ¬ rootOnly.LookupRight [] := by
  refine ⟨⟨rfl, by decide⟩, by decide, by decide, ?_⟩
  rw [VolumeDentries.lookupRight_iff]
  decide

end ZFS.Dcache
