import Mathlib.Data.List.TakeWhile
import ZlomekFS.Spec.VersionFiles

/-! The right version files are found for all times just in proper directories: `version_browse_dir` compares only as
many bytes as the name has, so that the versions of longer names count as well. -/

namespace ZFS.VersionFiles
open Decimals List

/-! ## Names of versions -/

theorem isDigit_range {b : UInt8} (h : isDigit b = true) : 48 ≤ b.toNat ∧ b.toNat ≤ 57 := by
  simpa [isDigit, UInt8.le_iff_toNat_le] using h

theorem ne_of_isDigit {b x : UInt8} (h : isDigit b = true) (hx : isDigit x = false) : b ≠ x := by
  rintro rfl
  rw [h] at hx
  cases hx

section Decimal
variable {t : ℤ}

theorem decimal_of_pos (h : 0 < t) : decimal t = numeral t.toNat := by
  rw [decimal, if_neg (by omega), show t.natAbs = t.toNat by omega]

theorem strtol_numeral {n : ℕ} (h : n < 2 ^ 63) : strtol (numeral n) = n := by
  obtain ⟨b, l, hl⟩ := exists_cons_of_ne_nil (numeral_ne_nil n)
  have hb : isDigit b = true := isDigit_of_mem_numeral (n := n) (by rw [hl]; simp)
  have hrange := isDigit_range hb
  have hspace : isspace b = false := by
    simp only [isspace, UInt8.le_iff_toNat_le, Bool.or_eq_false_iff, decide_eq_false_iff_not, ← UInt8.toNat_inj,
      Bool.and_eq_false_iff, UInt8.reduceToNat]
    omega
  have hall : (numeral n).takeWhile isDigit = numeral n :=
    takeWhile_eq_self_iff.mpr fun b hb => isDigit_of_mem_numeral hb
  have hdrop : (numeral n).dropWhile isspace = numeral n := by rw [hl, dropWhile_cons_of_neg (by simp [hspace])]
  have hminus : (numeral n).head? ≠ some 45 := by
    rw [hl]
    simpa using ne_of_isDigit hb (by decide)
  have hplus : (numeral n).head? ≠ some 43 := by
    rw [hl]
    simpa using ne_of_isDigit hb (by decide)
  simp only [strtol, hdrop, hminus, hplus, or_self, if_false, hall, value_numeral]
  omega

theorem atoi_decimal (hpos : 0 < t) (hmax : t ≤ INT32_MAX) : atoi (decimal t) = t := by
  unfold INT32_MAX at hmax
  rw [atoi, decimal_of_pos hpos, strtol_numeral (by omega), Int32.toInt_ofInt_of_le (by omega) (by omega)]
  omega

theorem atoi_le (p : Name) : atoi p ≤ INT32_MAX := by
  have := Int32.toInt_lt (Int32.ofInt (strtol p))
  unfold INT32_MAX
  unfold atoi
  omega

theorem lt_atoi (p : Name) : -2 ^ 31 - 1 < atoi p := by
  have := Int32.le_toInt (Int32.ofInt (strtol p))
  unfold atoi
  omega

theorem dot_notMem_decimal (t : ℤ) : DOT ∉ decimal t := by
  have hnumeral : DOT ∉ numeral t.natAbs := fun hmem =>
    ne_of_isDigit (isDigit_of_mem_numeral hmem) (by decide : isDigit DOT = false) rfl
  unfold decimal
  split_ifs
  · exact not_mem_cons_of_ne_of_not_mem (by decide) hnumeral
  · exact hnumeral

theorem decimal_injective : Function.Injective decimal := by
  have hminus (n : ℕ) (l : List UInt8) : numeral n ≠ 45 :: l := fun h =>
    ne_of_isDigit (isDigit_of_mem_numeral (n := n) (by rw [h]; simp)) (by decide : isDigit 45 = false) rfl
  intro t u h
  unfold decimal at h
  split_ifs at h
  · have := numeral_injective (cons.inj h).2
    omega
  · exact absurd h.symm (hminus _ _)
  · exact absurd h (hminus _ _)
  · have := numeral_injective h
    omega

end Decimal

theorem at_notMem_sname (name : Name) : AT ∉ sname name := by
  intro h
  simpa using mem_takeWhile_imp h

theorem versionName_injective (name : Name) : Function.Injective (versionName name) := fun _ _ h =>
  decimal_injective (cons.inj (append_cancel_left h)).2

theorem versionName_ne {name : Name} (t : ℤ) : versionName name t ≠ name := by
  intro h
  have hlen := congrArg length h
  simp [versionName] at hlen

section VersionName
variable {name : Name} (hname : AT ∉ name) {t : ℤ}

include hname

theorem takeWhile_at (l : Name) : (name ++ AT :: l).takeWhile (· ≠ AT) = name := by
  rw [takeWhile_append_of_pos]
  · simp
  · intro b hb
    simpa using fun h : b = AT => hname (h ▸ hb)

theorem dropWhile_at (l : Name) : (name ++ AT :: l).dropWhile (· ≠ AT) = AT :: l := by
  rw [dropWhile_append_of_pos]
  · simp
  · intro b hb
    simpa using fun h : b = AT => hname (h ▸ hb)

theorem splitName_versionName (t : ℤ) : splitName (versionName name t) = some (name, decimal t) := by
  have hdot : ∀ b ∈ decimal t, decide (b ≠ DOT) = true := by
    intro b hb
    simpa using fun h : b = DOT => dot_notMem_decimal t (h ▸ hb)
  simp only [splitName, versionName, dropWhile_at hname, takeWhile_at hname]
  rw [dropWhile_eq_nil_iff.mpr hdot, takeWhile_eq_self_iff.mpr hdot]
  simp

theorem considered_versionName {e : Dirent} (he : e.name = versionName name t) : Content.Considered name e := by
  refine ⟨he ▸ prefix_append _ _, fun h => versionName_ne t (he.symm.trans h), ?_⟩
  rw [he, splitName_versionName hname]
  simp

end VersionName

/-! ## Files -/

namespace Content

variable {c : Content}

theorem stat_of_mem {e : Dirent} (he : e ∈ c.entries) : c.stat e.name = e.mtime := by
  have hfind : c.entries.find? (·.name = e.name) = some e := by
    obtain ⟨e', he'⟩ := Option.isSome_iff_exists.mp
      (find?_isSome.mpr ⟨e, he, by simp⟩ : (c.entries.find? (·.name = e.name)).isSome = true)
    have hname : e'.name = e.name := by simpa using find?_some he'
    rw [he', inj_on_of_nodup_map c.nodup (mem_of_find?_eq_some he') he hname]
  rw [stat, hfind]
  rfl

theorem stat_of_not_has {path : Name} (h : ¬ c.Has path) : c.stat path = none := by
  have hfind : c.entries.find? (·.name = path) = none := by
    rw [find?_eq_none]
    intro e he hname
    exact h ⟨e, he, by simpa using hname⟩
  rw [stat, hfind]
  rfl

theorem exists_of_stat {path : Name} {m : ℤ} (h : c.stat path = some m) :
    ∃ e ∈ c.entries, e.name = path ∧ e.mtime = some m := by
  by_cases hhas : c.Has path
  · obtain ⟨e, he, rfl⟩ := hhas
    exact ⟨e, he, rfl, by rw [← stat_of_mem he, h]⟩
  · rw [stat_of_not_has hhas] at h
    cases h

end Content

/-! ## The list -/

def listed (name : Name) (stamp : ℤ) (e : Dirent) : Option Item :=
  if name <+: e.name then
    if e.name.length = name.length then some ⟨INT32_MAX, e.name⟩
    else (splitName e.name).bind fun x => if stamp < atoi x.2 then some ⟨atoi x.2, x.1 ++ AT :: x.2⟩ else none
  else none

section List
variable {c : Content} {name : Name} {stamp : ℤ} {e : Dirent}

theorem browseEntry_v (s : Browse) :
    (browseEntry c name stamp s e).v = s.v.map (· ++ (listed name stamp e).toList) := by
  unfold browseEntry listed
  split_ifs
  · rfl
  · cases splitName e.name with
    | none => simp
    | some x =>
      by_cases ht : stamp < atoi x.2
      · simp [ht]
      · simp [ht]
  · simp

theorem browseEntry_ino_isSome (s : Browse) : (browseEntry c name stamp s e).ino.isSome = s.ino.isSome := by
  unfold browseEntry
  split_ifs
  · rfl
  · cases splitName e.name with
    | none => rfl
    | some x =>
      simp only
      split_ifs with hfound
      · simp only [Bool.and_eq_true] at hfound
        simp [hfound.1.1.1]
      · rfl
  · rfl

theorem foldl_browseEntry_v (entries : List Dirent) (s : Browse) :
    (entries.foldl (browseEntry c name stamp) s).v = s.v.map (· ++ entries.filterMap (listed name stamp)) := by
  induction entries generalizing s with
  | nil => simp
  | cons e entries ih =>
    rw [foldl_cons, ih, browseEntry_v, Option.map_map]
    congr 1
    funext l
    cases h : listed name stamp e <;> simp [h]

theorem foldl_browseEntry_ino_isSome (entries : List Dirent) (s : Browse) :
    (entries.foldl (browseEntry c name stamp) s).ino.isSome = s.ino.isSome := by
  induction entries generalizing s with
  | nil => rfl
  | cons e entries ih => rw [foldl_cons, ih, browseEntry_ino_isSome]

theorem versionList_eq (c : Content) (name : Name) (stamp : ℤ) :
    versionList c.directory name stamp = c.entries.filterMap (listed (sname name) stamp) := by
  have hnone : (c.entries.foldl (browseEntry c (sname name) stamp) ⟨0, 0, none, some []⟩).ino.isNone = true := by
    rw [Option.isNone_iff_eq_none, ← Option.not_isSome_iff_eq_none, foldl_browseEntry_ino_isSome]
    simp
  simp only [versionList, versionBrowseDir, Content.directory, hnone, if_true, foldl_browseEntry_v]
  simp

theorem listed_current (he : e.name = name) : listed name stamp e = some ⟨INT32_MAX, name⟩ := by
  simp [listed, he]

theorem listed_of_considered {base p : Name} (he : Content.Considered name e) (hsplit : splitName e.name = some (base, p)) :
    listed name stamp e = if stamp < atoi p then some ⟨atoi p, base ++ AT :: p⟩ else none := by
  have hlen : e.name.length ≠ name.length := fun h => he.2.1 (he.1.eq_of_length h.symm).symm
  simp [listed, he.1, hlen, hsplit]

theorem listed_version (hname : AT ∉ name) {t : ℤ} (hpos : 0 < t) (hmax : t ≤ INT32_MAX)
    (he : e.name = versionName name t) :
    listed name stamp e = if stamp < t then some ⟨t, versionName name t⟩ else none := by
  have hsplit := splitName_versionName hname t
  rw [← he] at hsplit
  rw [listed_of_considered (considered_versionName hname he) hsplit, atoi_decimal hpos hmax]
  rfl

theorem listed_other (hne : e.name ≠ name) (he : ¬ Content.Considered name e) : listed name stamp e = none := by
  unfold listed
  split_ifs with hpre hlen
  · exact absurd (hpre.eq_of_length hlen.symm).symm hne
  · have hsplit : splitName e.name = none := by
      by_contra hsplit
      exact he ⟨hpre, hne, hsplit⟩
    rw [hsplit]
    rfl
  · rfl

variable (hname : AT ∉ name)
  (honly : Content.Considered name e → ∃ t : ℤ, 0 < t ∧ t ≤ INT32_MAX ∧ e.name = versionName name t)
include hname honly

theorem listed_iff {i : Item} :
    listed name stamp e = some i ↔
      (0 < i.stamp ∧ stamp < i.stamp ∧ i.name = versionName name i.stamp ∧ e.name = i.name) ∨
        (e.name = name ∧ i = ⟨INT32_MAX, name⟩) := by
  constructor
  · intro h
    by_cases hcurrent : e.name = name
    · rw [listed_current hcurrent] at h
      exact Or.inr ⟨hcurrent, (Option.some.inj h).symm⟩
    by_cases hconsidered : Content.Considered name e
    · obtain ⟨t, hpos, hmax, he⟩ := honly hconsidered
      rw [listed_version hname hpos hmax he] at h
      split_ifs at h with hstamp
      obtain rfl := Option.some.inj h
      exact Or.inl ⟨hpos, hstamp, rfl, he⟩
    · rw [listed_other hcurrent hconsidered] at h
      cases h
  · rintro (⟨hpos, hstamp, hi, he⟩ | ⟨he, rfl⟩)
    · have hversion := he.trans hi
      obtain ⟨t, -, hmax, ht⟩ := honly (considered_versionName hname hversion)
      rw [← versionName_injective name (hversion.symm.trans ht)] at hmax
      rw [listed_version hname hpos hmax hversion, if_pos hstamp, ← hi]
    · exact listed_current he

theorem name_of_listed {i : Item} (h : listed name stamp e = some i) : i.name = e.name := by
  rcases (listed_iff hname honly).mp h with ⟨-, -, -, he⟩ | ⟨he, rfl⟩
  · exact he.symm
  · exact he.symm

end List

namespace Content

variable {c : Content} {name : Name}

def Only (c : Content) (name : Name) : Prop :=
  ∀ e ∈ c.entries, Considered name e → ∃ t : ℤ, 0 < t ∧ t ≤ INT32_MAX ∧ e.name = versionName name t

theorem Only.listRight (hname : AT ∉ name) (h : c.Only name) (stamp : ℤ) :
    c.ListRight name stamp (c.entries.filterMap (listed name stamp)) where
  nodup := by
    rw [nodup_iff_pairwise_ne, pairwise_filterMap]
    refine (pairwise_map.mp c.nodup).imp_of_mem ?_
    rintro e e' he he' hne i hi i' hi' rfl
    exact hne ((name_of_listed hname (h e he) hi).symm.trans (name_of_listed hname (h e' he') hi'))
  mem_iff i := by
    rw [mem_filterMap]
    constructor
    · rintro ⟨e, he, hi⟩
      rcases (listed_iff hname (h e he)).mp hi with ⟨hpos, hstamp, hi, hversion⟩ | ⟨hcurrent, rfl⟩
      · exact Or.inl ⟨⟨hpos, e, he, hversion.trans hi⟩, hstamp, hi⟩
      · exact Or.inr ⟨⟨e, he, hcurrent⟩, rfl⟩
    · rintro (⟨⟨hpos, e, he, hversion⟩, hstamp, hi⟩ | ⟨⟨e, he, hcurrent⟩, rfl⟩)
      · exact ⟨e, he, (listed_iff hname (h e he)).mpr (Or.inl ⟨hpos, hstamp, hi, hversion.trans hi.symm⟩)⟩
      · exact ⟨e, he, listed_current hcurrent⟩

theorem only_of_listRight (hname : AT ∉ name)
    (h : c.ListRight name (-2 ^ 31 - 1) (c.entries.filterMap (listed name (-2 ^ 31 - 1)))) : c.Only name := by
  intro e he hconsidered
  obtain ⟨⟨base, p⟩, hsplit⟩ := Option.ne_none_iff_exists'.mp hconsidered.2.2
  have hlisted : listed name (-2 ^ 31 - 1) e = some ⟨atoi p, base ++ AT :: p⟩ := by
    rw [listed_of_considered hconsidered hsplit, if_pos (lt_atoi p)]
  rcases (h.mem_iff _).mp (mem_filterMap.mpr ⟨e, he, hlisted⟩) with ⟨⟨hpos, e', he', hversion⟩, -, hi⟩ | ⟨-, hi⟩
  · refine ⟨atoi p, hpos, atoi_le p, ?_⟩
    -- the version itself is listed too, so it is this entry
    have hlisted' : listed name (-2 ^ 31 - 1) e' = some ⟨atoi p, base ++ AT :: p⟩ := by
      rw [listed_version hname hpos (atoi_le p) hversion, if_pos (lt_atoi p)]
      exact congrArg some (congrArg (Item.mk (atoi p)) hi.symm)
    by_contra hne
    have hpairs := pairwise_filterMap.mp (nodup_iff_pairwise_ne.mp h.nodup)
    have hsymm : Std.Symm fun a a' : Dirent => ∀ i, listed name (-2 ^ 31 - 1) a = some i → ∀ i',
        listed name (-2 ^ 31 - 1) a' = some i' → i ≠ i' := ⟨fun _ _ hne i hi i' hi' => (hne i' hi' i hi).symm⟩
    have hee : e ≠ e' := by
      rintro rfl
      exact hne hversion
    exact hpairs.forall he he' hee _ hlisted _ hlisted' rfl
  · have hat : AT ∈ name := by
      have hbase : base ++ AT :: p = name := congrArg Item.name hi
      rw [← hbase]
      simp
    exact absurd hat hname

end Content

/-! ## The search -/

theorem existed_iff {m : Option ℤ} {stamp : ℤ} : existed m stamp = true ↔ ∃ t, m = some t ∧ t ≠ 0 ∧ t ≤ stamp := by
  cases m <;> simp [existed]

namespace Content

variable {c : Content} {name : Name} {stamp : ℤ} {l : List Dirent} {e : Dirent}

def taken (c : Content) (name : Name) (stamp : ℤ) (l : List Dirent) : Set ℤ :=
  {t | stamp ≤ t ∧ 0 < t ∧ (∃ e ∈ l, e.name = versionName name t) ∧ existed (c.stat (versionName name t)) stamp = true}

structure Found (c : Content) (name : Name) (stamp : ℤ) (l : List Dirent) (s : Browse) : Prop where
  ino : s.ino.isSome = true
  res : (s.res = 0 ∧ c.taken name stamp l = ∅) ∨ IsLeast (c.taken name stamp l) s.res
  current : ∀ e ∈ l, e.name = name → s.currentIno = e.ino

theorem taken_append_other (h : ∀ t, 0 < t → e.name ≠ versionName name t) :
    c.taken name stamp (l ++ [e]) = c.taken name stamp l := by
  ext t
  simp only [taken, Set.mem_ofPred_eq]
  refine and_congr_right fun _ => and_congr_right fun hpos => and_congr_left fun _ => ?_
  simp [or_and_right, exists_or, h t hpos]

theorem mem_taken_append {t u : ℤ} (hpos : 0 < t) (he : e.name = versionName name t) :
    u ∈ c.taken name stamp (l ++ [e]) ↔
      u ∈ c.taken name stamp l ∨ (u = t ∧ stamp ≤ t ∧ existed (c.stat e.name) stamp = true) := by
  simp only [taken, Set.mem_ofPred_eq]
  constructor
  · rintro ⟨hstamp, hu, ⟨a, ha, hversion⟩, hexisted⟩
    rcases mem_append.mp ha with ha | ha
    · exact Or.inl ⟨hstamp, hu, ⟨a, ha, hversion⟩, hexisted⟩
    · rw [mem_singleton.mp ha, he] at hversion
      obtain rfl := versionName_injective name hversion
      exact Or.inr ⟨rfl, hstamp, he ▸ hexisted⟩
  · rintro (⟨hstamp, hu, ⟨a, ha, hversion⟩, hexisted⟩ | ⟨rfl, hstamp, hexisted⟩)
    · exact ⟨hstamp, hu, ⟨a, mem_append_left _ ha, hversion⟩, hexisted⟩
    · exact ⟨hstamp, hpos, ⟨e, mem_append_right _ mem_cons_self, he⟩, he ▸ hexisted⟩

theorem least_step {S S' : Set ℤ} {P : Prop} [Decidable P] {t res : ℤ} (hmem : ∀ u, u ∈ S' ↔ u ∈ S ∨ (u = t ∧ P))
    (hpos : ∀ u ∈ S, 0 < u) (h : (res = 0 ∧ S = ∅) ∨ IsLeast S res) :
    ((if P ∧ (res = 0 ∨ t < res) then t else res) = 0 ∧ S' = ∅) ∨
      IsLeast S' (if P ∧ (res = 0 ∨ t < res) then t else res) := by
  by_cases hP : P
  · simp only [hP, and_true, true_and] at hmem ⊢
    refine Or.inr ?_
    rcases h with ⟨hres, hS⟩ | hleast
    · rw [if_pos (Or.inl hres)]
      refine ⟨(hmem t).mpr (Or.inr rfl), fun u hu => ?_⟩
      rcases (hmem u).mp hu with hu | rfl
      · rw [hS] at hu
        exact absurd hu (Set.notMem_empty u)
      · exact le_rfl
    · have hres := hpos res hleast.1
      split_ifs with hlt
      · refine ⟨(hmem t).mpr (Or.inr rfl), fun u hu => ?_⟩
        rcases (hmem u).mp hu with hu | rfl
        · have := hleast.2 hu
          omega
        · exact le_rfl
      · refine ⟨(hmem res).mpr (Or.inl hleast.1), fun u hu => ?_⟩
        rcases (hmem u).mp hu with hu | rfl
        · exact hleast.2 hu
        · omega
  · simp only [hP, and_false, or_false, false_and, if_false] at hmem ⊢
    rw [Set.ext hmem]
    exact h

theorem browseEntry_current {s : Browse} (he : e.name = name) :
    (browseEntry c name stamp s e).res = s.res ∧ (browseEntry c name stamp s e).currentIno = e.ino := by
  simp [browseEntry, he]

theorem browseEntry_other {s : Browse} (hne : e.name ≠ name) (he : ¬ Considered name e) :
    browseEntry c name stamp s e = s := by
  unfold browseEntry
  split_ifs with hpre hlen
  · exact absurd (hpre.eq_of_length hlen.symm).symm hne
  · have hsplit : splitName e.name = none := by
      by_contra hsplit
      exact he ⟨hpre, hne, hsplit⟩
    rw [hsplit]
  · rfl

theorem browseEntry_version {s : Browse} (hname : AT ∉ name) {t : ℤ} (hpos : 0 < t) (hmax : t ≤ INT32_MAX)
    (he : e.name = versionName name t) (hino : s.ino.isSome = true) :
    (browseEntry c name stamp s e).res =
        (if (stamp ≤ t ∧ existed (c.stat e.name) stamp = true) ∧ (s.res = 0 ∨ t < s.res) then t else s.res) ∧
      (browseEntry c name stamp s e).currentIno = s.currentIno := by
  have hlen : e.name.length ≠ name.length := by simp [he, versionName]
  have hpre : name <+: e.name := (considered_versionName hname he).1
  have hsplit := splitName_versionName hname t
  rw [← he] at hsplit
  have hstat : c.stat (name ++ AT :: decimal t) = c.stat e.name := by rw [he]; rfl
  simp only [browseEntry, hpre, hlen, hsplit, if_true, if_false, atoi_decimal hpos hmax, hino, hstat]
  refine ⟨?_, trivial⟩
  congr 1
  simp only [Bool.true_and, Bool.and_eq_true, Bool.or_eq_true, decide_eq_true_eq, eq_iff_iff]
  tauto

theorem Found.step (hname : AT ∉ name) {s : Browse} (h : c.Found name stamp l s) (hl : ∀ a ∈ l, a.name ≠ e.name)
    (honly : Considered name e → ∃ t : ℤ, 0 < t ∧ t ≤ INT32_MAX ∧ e.name = versionName name t) :
    c.Found name stamp (l ++ [e]) (browseEntry c name stamp s e) := by
  have hino : (browseEntry c name stamp s e).ino.isSome = true := (browseEntry_ino_isSome s).trans h.ino
  have hother (hne : e.name ≠ name) (hcurrent : (browseEntry c name stamp s e).currentIno = s.currentIno) :
      ∀ a ∈ l ++ [e], a.name = name → (browseEntry c name stamp s e).currentIno = a.ino := by
    intro a ha haname
    rcases mem_append.mp ha with ha | ha
    · rw [hcurrent, h.current a ha haname]
    · rw [mem_singleton.mp ha] at haname
      exact absurd haname hne
  by_cases hcurrent : e.name = name
  · obtain ⟨hres, hcur⟩ := @browseEntry_current c name stamp e s hcurrent
    refine ⟨hino, ?_, ?_⟩
    · rw [taken_append_other fun t _ ht => versionName_ne t (ht.symm.trans hcurrent), hres]
      exact h.res
    · intro a ha haname
      rcases mem_append.mp ha with ha | ha
      · exact absurd (haname.trans hcurrent.symm) (hl a ha)
      · rw [hcur, mem_singleton.mp ha]
  by_cases hconsidered : Considered name e
  · obtain ⟨t, hpos, hmax, he⟩ := honly hconsidered
    obtain ⟨hres, hcur⟩ := @browseEntry_version c name stamp e s hname t hpos hmax he h.ino
    refine ⟨hino, ?_, hother hcurrent hcur⟩
    rw [hres]
    exact least_step (fun u => mem_taken_append hpos he) (fun u hu => hu.2.1) h.res
  · rw [browseEntry_other hcurrent hconsidered] at hother ⊢
    refine ⟨h.ino, ?_, hother hcurrent rfl⟩
    rw [taken_append_other fun t _ ht => hconsidered (considered_versionName hname ht)]
    exact h.res

theorem Found.run (hname : AT ∉ name) (honly : c.Only name) {s : Browse} {r : List Dirent} (hlr : c.entries = l ++ r)
    (h : c.Found name stamp l s) : c.Found name stamp c.entries (r.foldl (browseEntry c name stamp) s) := by
  induction r generalizing l s with
  | nil => rwa [hlr, append_nil]
  | cons e r ih =>
    have hnames := c.nodup
    rw [hlr, map_append, map_cons] at hnames
    have hl : ∀ a ∈ l, a.name ≠ e.name := fun a ha =>
      (nodup_append.mp hnames).2.2 a.name (mem_map_of_mem ha) e.name mem_cons_self
    exact ih (by rw [hlr, append_assoc]; rfl) (h.step hname hl (honly e (by rw [hlr]; simp)))

/-- The result in a directory where only versions of the name are considered. -/
inductive Outcome (c : Content) (name : Name) (stamp : ℤ) : ℤ × Name → Prop
  | exact (h : c.stat (versionName name stamp) ≠ none) : Outcome c name stamp (ZFS_OK, versionName name stamp)
  | next (hstat : c.stat (versionName name stamp) = none) (t : ℤ) (h : IsLeast (c.taken name stamp c.entries) t) :
    Outcome c name stamp (ZFS_OK, versionName name t)
  | current (hstat : c.stat (versionName name stamp) = none) (hnone : c.taken name stamp c.entries = ∅) (e : Dirent)
    (he : e ∈ c.entries) (hcurrent : e.name = name) (hexisted : existed e.mtime stamp = true)
    (hino : e.ino.toUInt32 ≠ 0) : Outcome c name stamp (ZFS_OK, name)
  | missing (hstat : c.stat (versionName name stamp) = none) (hnone : c.taken name stamp c.entries = ∅)
    (h : ∀ e ∈ c.entries, e.name = name → existed e.mtime stamp = true → e.ino.toUInt32 = 0) (left : Name) :
    Outcome c name stamp (ENOENT, left)

theorem versionBrowseDir_found {s : Browse} (hs : c.entries.foldl (browseEntry c name stamp) ⟨0, 0, some 0, none⟩ = s)
    (h : c.Found name stamp c.entries s) :
    versionBrowseDir c.directory name stamp (some 0) none =
      if s.res ≠ 0 then ⟨ZFS_OK, s.res, s.ino, s.v⟩
      else ⟨ZFS_OK, 0, some (if existed (c.stat name) stamp then s.currentIno.toUInt32 else 0), s.v⟩ := by
  have hino : s.ino.isNone = false := by simpa using h.ino
  simp only [versionBrowseDir, directory, hs, hino, Bool.false_eq_true, if_false]

theorem findVersion_outcome {full : Name} (honly : c.Only (sname full)) (stamp : ℤ) :
    c.Outcome (sname full) stamp (versionFindVersion c.directory full stamp) := by
  generalize hs : c.entries.foldl (browseEntry c (sname full) stamp) ⟨0, 0, some 0, none⟩ = s
  have hfound : c.Found (sname full) stamp c.entries s := by
    rw [← hs]
    refine Found.run (at_notMem_sname full) honly (nil_append _).symm ⟨rfl, Or.inl ⟨rfl, ?_⟩, by simp⟩
    simp [taken]
  unfold versionFindVersion
  rw [versionBrowseDir_found hs hfound]
  by_cases hstat : c.stat (versionName (sname full) stamp) = none
  · rw [if_neg (by rw [directory, hstat]; simp)]
    rcases hfound.res with ⟨hres, hnone⟩ | hleast
    · simp only [hres, ne_eq, not_true, if_false, lt_self_iff_false, Option.getD_some]
      by_cases hexisted : existed (c.stat (sname full)) stamp = true
      · obtain ⟨m, hm, -⟩ := existed_iff.mp hexisted
        obtain ⟨e, he, hcurrent, -⟩ := exists_of_stat hm
        rw [if_pos hexisted, hfound.current e he hcurrent]
        rw [← hcurrent, stat_of_mem he] at hexisted
        split_ifs with hino
        · exact .current hstat hnone e he hcurrent hexisted (UInt32.pos_iff_ne_zero.mp hino)
        · refine .missing hstat hnone (fun a ha hacurrent _ => ?_) full
          rw [inj_on_of_nodup_map c.nodup ha he (hacurrent.trans hcurrent.symm)]
          by_contra hne
          exact hino (UInt32.pos_iff_ne_zero.mpr hne)
      · rw [if_neg hexisted, if_neg (by decide)]
        refine .missing hstat hnone (fun e he hcurrent he' => ?_) full
        rw [← stat_of_mem he, hcurrent] at he'
        exact absurd he' hexisted
    · have hpos : 0 < s.res := hleast.1.2.1
      rw [if_pos hpos.ne']
      simp only [hpos, if_true]
      exact .next hstat s.res hleast
  · rw [if_pos (show (c.directory.content.stat _).isSome = true from Option.isSome_iff_ne_none.mpr hstat)]
    exact .exact hstat

/-! ## Right results -/

theorem mem_taken {t : ℤ} : t ∈ c.taken name stamp c.entries ↔
    stamp ≤ t ∧ c.IsVersion name t ∧ ∃ m, c.stat (versionName name t) = some m ∧ m ≠ 0 ∧ m ≤ stamp := by
  rw [← existed_iff]
  exact ⟨fun ⟨h, hpos, hhas, he⟩ => ⟨h, ⟨hpos, hhas⟩, he⟩, fun ⟨h, ⟨hpos, hhas⟩, he⟩ => ⟨h, hpos, hhas, he⟩⟩

theorem taken_subset : c.taken name stamp c.entries ⊆ c.candidates name stamp := by
  intro t ht
  obtain ⟨hstamp, hversion, m, hm, -, hle⟩ := mem_taken.mp ht
  exact ⟨hstamp, hversion, m, hm, hle⟩

theorem stat_eq_none (hname : AT ∉ name) (honly : c.Only name) (h : ¬ c.IsVersion name stamp) :
    c.stat (versionName name stamp) = none := by
  apply stat_of_not_has
  rintro ⟨e, he, hversion⟩
  obtain ⟨t, hpos, -, ht⟩ := honly e he (considered_versionName hname hversion)
  obtain rfl := versionName_injective name (hversion.symm.trans ht)
  exact h ⟨hpos, e, he, hversion⟩

theorem Proper.isLeast_taken (h : c.Proper name) {t : ℤ} (hversion : ¬ c.IsVersion name stamp)
    (ht : IsLeast (c.candidates name stamp) t) : IsLeast (c.taken name stamp c.entries) t := by
  obtain ⟨hstamp, hvt, m, hm, hle⟩ := ht.1
  refine ⟨mem_taken.mpr ⟨hstamp, hvt, m, hm, ?_, hle⟩, fun u hu => ht.2 (taken_subset hu)⟩
  rintro rfl
  have hlt : stamp < t := lt_of_le_of_ne hstamp fun heq => hversion (heq ▸ hvt)
  obtain ⟨u, m, hsu, hut, hvu, hmu, -, hmle⟩ := h.covered t hvt hm stamp hle hlt hversion
  exact absurd (ht.2 ⟨hsu.le, hvu, m, hmu, hmle⟩) (not_le.mpr hut)

theorem Proper.findRight (hname : AT ∉ name) (h : c.Proper name) {r : ℤ × Name} (hr : c.Outcome name stamp r) :
    c.FindRight name stamp r := by
  have hnone (hversion : ¬ c.IsVersion name stamp) := stat_eq_none hname h.only hversion
  cases hr with
  | exact hstat =>
    -- then it is a version
    have hversion : c.IsVersion name stamp := by
      by_contra hversion
      exact hstat (hnone hversion)
    exact ⟨fun _ => rfl, fun hn => absurd hversion hn, fun hn => absurd hversion hn, fun hn => absurd hversion hn⟩
  | next hstat t ht =>
    refine ⟨fun hversion => absurd hstat (h.readable stamp hversion), fun hversion u hu => ?_, fun _ hempty => ?_,
      fun _ hempty => ?_⟩
    · rw [(h.isLeast_taken hversion hu).unique ht]
    · exact absurd (hempty ▸ taken_subset ht.1) (Set.notMem_empty t)
    · exact absurd (hempty ▸ taken_subset ht.1) (Set.notMem_empty t)
  | current hstat htaken e he hcurrent hexisted hino =>
    refine ⟨fun hversion => absurd hstat (h.readable stamp hversion), fun hversion u hu => ?_, fun _ _ _ => rfl,
      fun _ _ hex => ?_⟩
    · exact absurd (htaken ▸ (h.isLeast_taken hversion hu).1) (Set.notMem_empty u)
    · obtain ⟨m, hm, -, hle⟩ := existed_iff.mp hexisted
      exact absurd ⟨m, by rw [← hcurrent, stat_of_mem he, hm], hle⟩ hex
  | missing hstat htaken hall left =>
    refine ⟨fun hversion => absurd hstat (h.readable stamp hversion), fun hversion u hu => ?_, fun _ _ hex => ?_,
      fun _ _ _ => rfl⟩
    · exact absurd (htaken ▸ (h.isLeast_taken hversion hu).1) (Set.notMem_empty u)
    · obtain ⟨m, hm, hle⟩ := hex
      obtain ⟨e, he, hcurrent, hmtime⟩ := exists_of_stat hm
      obtain ⟨hzero, hino⟩ := h.current e he hcurrent (by simp [hmtime])
      exact absurd (hall e he hcurrent (existed_iff.mpr ⟨m, hmtime, fun h0 => hzero (h0 ▸ hmtime), hle⟩)) hino

theorem readable_of_findRight {r : ℤ × Name} (hr : c.Outcome name stamp r) (h : c.FindRight name stamp r)
    (hversion : c.IsVersion name stamp) : c.stat (versionName name stamp) ≠ none := by
  have hexact := h.exact hversion
  cases hr with
  | exact hstat => exact hstat
  | next hstat t ht =>
    obtain rfl := versionName_injective name (Prod.mk.inj hexact).2
    obtain ⟨-, -, m, hm, -⟩ := mem_taken.mp ht.1
    simp [hm]
  | current => exact absurd (Prod.mk.inj hexact).2.symm (versionName_ne stamp)
  | missing => exact absurd (Prod.mk.inj hexact).1 (by decide)

theorem current_of_findRight (hname : AT ∉ name) (honly : c.Only name) {e : Dirent} (he : e ∈ c.entries)
    (hcurrent : e.name = name) {m : ℤ} (hm : e.mtime = some m) {r : ℤ × Name} (hr : c.Outcome name stamp r)
    (h : c.FindRight name stamp r) (hlate : (INT32_MAX : ℤ) < stamp) (hle : m ≤ stamp) : m ≠ 0 ∧ e.ino.toUInt32 ≠ 0 := by
  have hmax {t : ℤ} (ht : c.IsVersion name t) : t ≤ INT32_MAX := by
    obtain ⟨-, a, ha, hversion⟩ := ht
    obtain ⟨u, -, hu, hname'⟩ := honly a ha (considered_versionName hname hversion)
    rwa [versionName_injective name (hversion.symm.trans hname')]
  have hempty : c.candidates name stamp = ∅ := by
    rw [Set.eq_empty_iff_forall_notMem]
    rintro t ⟨hstamp, ht, -⟩
    exact absurd (hmax ht) (by omega)
  have hright := h.current (fun hversion => absurd (hmax hversion) (by omega)) hempty
    ⟨m, by rw [← hcurrent, stat_of_mem he, hm], hle⟩
  cases hr with
  | exact => exact absurd (Prod.mk.inj hright).2 (versionName_ne stamp)
  | next _ t => exact absurd (Prod.mk.inj hright).2 (versionName_ne t)
  | missing => exact absurd (Prod.mk.inj hright).1 (by decide)
  | current _ _ a ha hacurrent hexisted hino =>
    obtain rfl := inj_on_of_nodup_map c.nodup ha he (hacurrent.trans hcurrent.symm)
    obtain ⟨m', hm', hzero, -⟩ := existed_iff.mp hexisted
    rw [hm] at hm'
    exact ⟨(Option.some.inj hm') ▸ hzero, hino⟩

theorem covered_of_findRight (hname : AT ∉ name) (honly : c.Only name) {t : ℤ} (ht : c.IsVersion name t)
    (hzero : c.stat (versionName name t) = some 0) (hstamp : 0 ≤ stamp) (hlt : stamp < t)
    (hversion : ¬ c.IsVersion name stamp) {r : ℤ × Name} (hr : c.Outcome name stamp r) (h : c.FindRight name stamp r) :
    ∃ u m, stamp < u ∧ u < t ∧ c.IsVersion name u ∧ c.stat (versionName name u) = some m ∧ m ≠ 0 ∧ m ≤ stamp := by
  have hcandidate : t ∈ c.candidates name stamp := ⟨hlt.le, ht, 0, hzero, hstamp⟩
  obtain ⟨u, hu, hleast⟩ := Int.exists_least_of_bdd ⟨stamp, fun z hz => hz.1⟩ ⟨t, hcandidate⟩
  have hright := h.next hversion u ⟨hu, fun z hz => hleast z hz⟩
  cases hr with
  | exact hstat => exact absurd (stat_eq_none hname honly hversion) hstat
  | current => exact absurd (Prod.mk.inj hright).2.symm (versionName_ne u)
  | missing => exact absurd (Prod.mk.inj hright).1 (by decide)
  | next _ u' hu' =>
    obtain rfl := versionName_injective name (Prod.mk.inj hright).2
    obtain ⟨hle, hvu, m, hm, hne, hmle⟩ := mem_taken.mp hu'.1
    refine ⟨u', m, lt_of_le_of_ne hle ?_, lt_of_le_of_ne (hleast t hcandidate) ?_, hvu, hm, hne, hmle⟩
    · rintro rfl
      exact hversion hvu
    · rintro rfl
      rw [hzero] at hm
      exact hne (Option.some.inj hm).symm

end Content

/-- For all times the right versions are found and listed just in proper directories. -/
theorem versionFiles_iff (c : Content) (name : Name) :
    (∀ stamp, c.FindRight (sname name) stamp (versionFindVersion c.directory name stamp) ∧
      c.ListRight (sname name) stamp (versionList c.directory name stamp)) ↔ c.Proper (sname name) := by
  have hname := at_notMem_sname name
  constructor
  · intro h
    have honly : c.Only (sname name) := by
      apply Content.only_of_listRight hname
      rw [← versionList_eq]
      exact (h _).2
    have hr (stamp : ℤ) := Content.findVersion_outcome honly stamp
    refine ⟨honly, fun t ht => Content.readable_of_findRight (hr t) (h t).1 ht, fun e he hcurrent hmtime => ?_,
      fun t ht hzero stamp hstamp hlt hversion =>
        Content.covered_of_findRight hname honly ht hzero hstamp hlt hversion (hr stamp) (h stamp).1⟩
    obtain ⟨m, hm⟩ := Option.ne_none_iff_exists'.mp hmtime
    obtain ⟨hzero, hino⟩ := Content.current_of_findRight hname honly he hcurrent hm (hr (max m (INT32_MAX + 1)))
      (h _).1 (by omega) (le_max_left _ _)
    exact ⟨by simpa [hm] using hzero, hino⟩
  · intro h stamp
    refine ⟨h.findRight hname (Content.findVersion_outcome h.only stamp), ?_⟩
    rw [versionList_eq]
    exact Content.Only.listRight hname h.only stamp

/-- A directory with the file `fg@9` and no file `f`. -/
def longerName : Content where
  entries := [⟨[102, 103, 64, 57], 1, some 3⟩]
  nodup := by simp

/-- A version `f@9` of the file `f` is found that is not there, and its list has the file `fg@9`. -/
theorem longerName_wrong :
    versionFindVersion longerName.directory [102] 5 = (ZFS_OK, versionName [102] 9) ∧
      ¬ longerName.Has (versionName [102] 9) ∧
      versionList longerName.directory [102] 5 = [⟨9, [102, 103, 64, 57]⟩] ∧
      ¬ longerName.FindRight [102] 5 (versionFindVersion longerName.directory [102] 5) ∧
      ¬ longerName.ListRight [102] 5 (versionList longerName.directory [102] 5) := by
  have hfind : versionFindVersion longerName.directory [102] 5 = (ZFS_OK, versionName [102] 9) := by decide +kernel
  have hlist : versionList longerName.directory [102] 5 = [⟨9, [102, 103, 64, 57]⟩] := by decide +kernel
  have hhas (t : ℤ) : ¬ longerName.Has (versionName [102] t) := by
    simp [Content.Has, longerName, versionName, AT]
  have hempty : longerName.candidates [102] 5 = ∅ :=
    Set.eq_empty_iff_forall_notMem.mpr fun t ht => hhas t ht.2.1.2
  have hcurrent : ¬ longerName.ExistedAt [102] 5 := by
    rintro ⟨m, hm, -⟩
    exact absurd hm (by simp [Content.stat, longerName])
  refine ⟨hfind, hhas 9, hlist, fun h => ?_, fun h => ?_⟩
  · have hmissing := h.missing (fun hversion => hhas 5 hversion.2) hempty hcurrent
    rw [hfind] at hmissing
    exact absurd hmissing (by decide)
  · rcases (h.mem_iff ⟨9, [102, 103, 64, 57]⟩).mp (by rw [hlist]; simp) with ⟨hversion, -⟩ | ⟨-, hi⟩
    · exact hhas _ hversion.2
    · exact absurd hi (by decide)

/-! ## Chains of versions -/

section Chain
variable {c : Content} {name : Name} {items : List Item} {stamp : ℕ} {chain : VersionChain}
  (hchain : ∀ t : ℕ, t ∈ chain.versions.map VersionItem.stamp ↔ c.IsVersion name t)

include hchain

theorem isVersion_iff_chain (t : ℤ) : c.IsVersion name t ↔ ∃ v ∈ chain.versions, (v.stamp : ℤ) = t := by
  constructor
  · intro h
    obtain ⟨n, rfl⟩ := Int.eq_ofNat_of_zero_le h.1.le
    obtain ⟨v, hv, hstamp⟩ := mem_map.mp ((hchain n).mpr h)
    exact ⟨v, hv, by rw [hstamp]⟩
  · rintro ⟨v, hv, rfl⟩
    exact (hchain v.stamp).mp (mem_map_of_mem hv)

section
variable (h : c.ListRight name stamp items)

include h

theorem nodup_stamps : (items.map Item.stamp).Nodup := by
  have hlt {t : ℤ} (ht : c.IsVersion name t) : t ≠ INT32_MAX := by
    obtain ⟨v, hv, rfl⟩ := (isVersion_iff_chain hchain t).mp ht
    have := chain.stamp_lt v hv
    omega
  refine h.nodup.map_on fun i hi j hj hij => ?_
  rcases (h.mem_iff i).mp hi with ⟨hversion, -, hi⟩ | ⟨-, rfl⟩ <;>
    rcases (h.mem_iff j).mp hj with ⟨hversion', -, hj⟩ | ⟨-, rfl⟩
  · cases i
    cases j
    simp_all
  · exact absurd hij (hlt hversion)
  · exact absurd hij.symm (hlt hversion')
  · rfl

theorem mem_stamps (hcurrent : c.Has name) (t : ℤ) :
    t ∈ items.map Item.stamp ↔ t ∈ (chain.versionBrowseDir stamp).map fun v => (v.stamp : ℤ) := by
  simp only [mem_map, h.mem_iff, VersionChain.versionBrowseDir, mem_cons, mem_filter, decide_eq_true_eq,
    isVersion_iff_chain hchain]
  constructor
  · rintro ⟨i, ⟨⟨v, hv, hstamp⟩, hlater, -⟩ | ⟨-, rfl⟩, rfl⟩
    · exact ⟨v, Or.inr ⟨hv, by omega⟩, hstamp⟩
    · exact ⟨chain.current, Or.inl rfl, rfl⟩
  · rintro ⟨v, rfl | ⟨hv, hlater⟩, rfl⟩
    · exact ⟨⟨INT32_MAX, name⟩, Or.inr ⟨hcurrent, rfl⟩, rfl⟩
    · exact ⟨⟨v.stamp, versionName name v.stamp⟩, Or.inl ⟨⟨v, hv, rfl⟩, Nat.cast_lt.mpr hlater, rfl⟩, rfl⟩

/-- A right list has the items of the chain that is read. -/
theorem stamps_perm (hcurrent : c.Has name) :
    (items.map Item.stamp).Perm ((chain.versionBrowseDir stamp).map fun v => (v.stamp : ℤ)) := by
  refine (perm_ext_iff_of_nodup (nodup_stamps hchain h) ?_).mpr (mem_stamps hchain h hcurrent)
  have hstamps : ((chain.versionBrowseDir stamp).map VersionItem.stamp).Nodup := by
    rw [VersionChain.versionBrowseDir, map_cons, nodup_cons]
    refine ⟨fun hmem => ?_, chain.nodup.sublist (filter_sublist.map _)⟩
    obtain ⟨v, hv, hstamp⟩ := mem_map.mp hmem
    exact absurd hstamp (chain.stamp_lt v (mem_of_mem_filter hv)).ne
  have hcast := hstamps.map (Nat.cast_injective : Function.Injective (Nat.cast : ℕ → ℤ))
  rwa [map_map] at hcast

end

end Chain

/-- The scan of a directory gives the list of `VersionChain.versionBrowseDir`. -/
theorem versionList_perm {c : Content} {name : Name} (honly : c.Only (sname name)) (hcurrent : c.Has (sname name))
    {chain : VersionChain} (hchain : ∀ t : ℕ, t ∈ chain.versions.map VersionItem.stamp ↔ c.IsVersion (sname name) t)
    (stamp : ℕ) :
    ((versionList c.directory name stamp).map Item.stamp).Perm
      ((chain.versionBrowseDir stamp).map fun v => (v.stamp : ℤ)) := by
  rw [versionList_eq]
  exact stamps_perm hchain (Content.Only.listRight (at_notMem_sname name) honly stamp) hcurrent

/-- The file `f` has a version of the time 5. -/
theorem versionList_perm_five : ∃ c : Content, ((versionList c.directory [102] 0).map Item.stamp).Perm [INT32_MAX, 5] := by
  refine ⟨⟨[⟨[102], 1, none⟩, ⟨versionName [102] 5, 2, none⟩], by decide⟩,
    @versionList_perm _ [102] ?_ ⟨_, mem_cons_self, rfl⟩ ⟨[⟨5, 0, none⟩], 0, by decide, by decide⟩ (fun t => ?_) 0⟩
  · simpa [Content.Only, Content.Considered, sname, AT] using fun _ _ _ => ⟨5, by decide, by decide, rfl⟩
  · simp [Content.IsVersion, Content.Has, sname, AT, versionName, decimal_injective.eq_iff]
    omega

end ZFS.VersionFiles
