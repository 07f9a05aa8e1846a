import Mathlib.Data.List.TakeWhile
import ZlomekFS.Proofs.DataCoding
import ZlomekFS.Spec.Readdir

/-! A listing that is read in parts is right for all buffers where the entries are ordered. `is_vername` is never
cleared, so that a plain name behind a version is shown under the name of the version. The name of a version is compared
with those of a virtual directory without its time. A cookie has the lower half of a position only. The cookies of a
conflict directory count the members that are shown, while the next call takes them for positions. The table of a
directory of the past is filled by the first call up to an entry that does not fit. -/

namespace ZFS.Readdir
open Cursors Packets Protocol Directory View List
open VersionFiles (AT DOT atoi)

/-! ## Counted entries -/

section Counting
variable {hidden : Name → Bool} {step : ℤ}

theorem shown_counting_cons (cookie : ℤ) (x : UInt32 × Name) (l : List (UInt32 × Name)) :
    shown (counting hidden step) cookie (x :: l) =
      if hidden x.2 then shown (counting hidden step) cookie l
      else ⟨x.1, cookie + step, x.2⟩ :: shown (counting hidden step) (cookie + step) l := by
  rw [shown, counting]
  cases hidden x.2 <;> rfl

theorem shown_counting_items (cookie : ℤ) (l : List (UInt32 × Name)) :
    (shown (counting hidden step) cookie l).map Entry.item = l.filter (!hidden ·.2) := by
  induction l generalizing cookie with
  | nil => rfl
  | cons x l ih =>
    rw [shown_counting_cons]
    cases hx : hidden x.2 with
    | true => simpa [hx] using ih cookie
    | false => simpa [hx, Entry.item] using ih (cookie + step)

theorem shown_counting_cookie {cookie : ℤ} {l : List (UInt32 × Name)} {front rest : List Entry} {e : Entry}
    (h : shown (counting hidden step) cookie l = front ++ e :: rest) : e.cookie = cookie + step * (front.length + 1) := by
  induction l generalizing cookie front with
  | nil => cases front <;> cases h
  | cons x l ih =>
    rw [shown_counting_cons] at h
    cases hx : hidden x.2 with
    | true =>
      rw [hx, if_pos rfl] at h
      exact ih h
    | false =>
      rw [hx, if_neg Bool.false_ne_true] at h
      cases front with
      | nil =>
        obtain ⟨rfl, -⟩ := cons.inj h
        simp
      | cons f front =>
        rw [ih (cons.inj h).2, length_cons]
        push_cast
        ring

/-- Where hidden items come last, the cookie of an entry is its position. -/
theorem shown_counting_rest {cookie : ℤ} {l : List (UInt32 × Name)} {front rest : List Entry} {e : Entry}
    (hlast : l.Pairwise fun a b => hidden a.2 = true → hidden b.2 = true)
    (h : shown (counting hidden step) cookie l = front ++ e :: rest) :
    rest = shown (counting hidden step) e.cookie (l.drop (front.length + 1)) := by
  induction l generalizing cookie front with
  | nil => cases front <;> cases h
  | cons x l ih =>
    obtain ⟨hx, hl⟩ := pairwise_cons.mp hlast
    cases hhidden : hidden x.2 with
    | true =>
      -- nothing is shown behind it
      have hnone : (shown (counting hidden step) cookie (x :: l)).map Entry.item = [] := by
        rw [shown_counting_items, filter_eq_nil_iff]
        intro y hy
        rcases mem_cons.mp hy with rfl | hy
        · simp [hhidden]
        · simp [hx y hy hhidden]
      rw [h] at hnone
      simp at hnone
    | false =>
      rw [shown_counting_cons, hhidden, if_neg Bool.false_ne_true] at h
      cases front with
      | nil =>
        obtain ⟨rfl, hrest⟩ := cons.inj h
        simpa using hrest.symm
      | cons f front =>
        rw [ih hl (cons.inj h).2]
        simp

end Counting

/-! ## Names -/

section Names
variable {v : View} {vd : Option VirtualDir} {name base stamp shown : Name} {e : LocalEntry}

theorem covered_iff : Covered vd name ↔ behind vd name = true := by
  cases vd with
  | none => simp [Covered, behind]
  | some w => simp [Covered, behind, VirtualDir.items, VirtualDir.hasName, or_assoc]

theorem private_iff : v.Private name ↔ v.special name = true := by
  simp [Private, special]

theorem span_of_notMem (h : AT ∉ name) : name.span (· ≠ AT) = (name, []) := by
  have hall : ∀ a ∈ name, decide (a ≠ AT) = true := fun a ha => decide_eq_true fun heq => h (heq ▸ ha)
  rw [span_eq_takeWhile_dropWhile, takeWhile_eq_self_iff.mpr hall, dropWhile_eq_nil_iff.mpr hall]

theorem span_append (h : AT ∉ base) : (base ++ AT :: stamp).span (· ≠ AT) = (base, AT :: stamp) := by
  have hall : ∀ a ∈ base, decide (a ≠ AT) = true := fun a ha => decide_eq_true fun heq => h (heq ▸ ha)
  rw [span_eq_takeWhile_dropWhile, takeWhile_append_of_pos hall, dropWhile_append_of_pos hall]
  simp

theorem kind_of_notMem (h : AT ∉ name) :
    v.kind name = if v.special name then .hidden else if !v.versioning then .plain
      else if v.listVersions then .hidden else .plain := by
  rw [kind, span_of_notMem h]

theorem kind_append (h : AT ∉ base) :
    v.kind (base ++ AT :: stamp) = if v.special (base ++ AT :: stamp) then .hidden else if !v.versioning then .plain
      else if DOT ∈ stamp then .hidden
      else if v.localVerdisplay then .version (base ++ AT :: v.timestamp (atoi stamp)) (base ++ [AT]) else .hidden := by
  rw [kind, span_append h]

theorem localVerdisplay_iff (hv : v.versioning = true) : v.localVerdisplay = true ↔ v.Displays := by
  simp [localVerdisplay, listVersions, Displays, hv]

theorem kind_of_displayed (h : v.Displayed name base stamp) :
    v.kind name = .version (base ++ AT :: v.timestamp (atoi stamp)) (base ++ [AT]) := by
  obtain ⟨hv, hd, rfl, hbase, hdot⟩ := h
  -- the names of the system have no `@`
  have hspecial : v.special (base ++ AT :: stamp) = false := by
    rw [← Bool.not_eq_true, ← private_iff]
    rintro ⟨-, hname | ⟨hname, -⟩⟩
    all_goals
      have hat : AT ∈ base ++ AT :: stamp := by simp
      rw [hname] at hat
      exact absurd hat (by decide)
  simp [kind_append hbase, hspecial, hv, hdot, (localVerdisplay_iff hv).mpr hd]

theorem displayed_of_kind {vername left : Name} (h : v.kind name = .version vername left) :
    ∃ base stamp, v.Displayed name base stamp ∧ vername = base ++ AT :: v.timestamp (atoi stamp) ∧ left = base ++ [AT] := by
  by_cases hat : AT ∈ name
  · obtain ⟨base, stamp, rfl, hbase⟩ := eq_append_cons_of_mem hat
    rw [kind_append hbase] at h
    split_ifs at h with hspecial hv hdot hdisplay
    obtain ⟨rfl, rfl⟩ := Kind.version.inj h
    rw [Bool.not_eq_true', Bool.not_eq_false] at hv
    exact ⟨base, stamp, ⟨hv, (localVerdisplay_iff hv).mp hdisplay, rfl, hbase, hdot⟩, rfl, rfl⟩
  · rw [kind_of_notMem hat] at h
    split_ifs at h

theorem kind_of_plain (hspecial : ¬ v.Private name) (h : v.versioning = true → AT ∉ name ∧ v.listVersions = false) :
    v.kind name = .plain := by
  rw [private_iff, Bool.not_eq_true] at hspecial
  cases hv : v.versioning with
  | false => simp [kind, hspecial, hv]
  | true => simp [kind_of_notMem (h hv).1, hspecial, (h hv).2]

theorem plain_of_kind (h : v.kind name = .plain) :
    ¬ v.Private name ∧ (v.versioning = true → AT ∉ name ∧ v.listVersions = false) := by
  have hspecial : ¬ v.Private name := by
    intro hp
    rw [kind, if_pos (private_iff.mp hp)] at h
    cases h
  refine ⟨hspecial, fun hv => ?_⟩
  rw [private_iff] at hspecial
  by_cases hat : AT ∈ name
  · obtain ⟨base, stamp, rfl, hbase⟩ := eq_append_cons_of_mem hat
    rw [kind_append hbase, if_neg hspecial, if_neg (by simp [hv])] at h
    split_ifs at h
  · rw [kind_of_notMem hat, if_neg hspecial, if_neg (by simp [hv])] at h
    split_ifs at h with hlist
    exact ⟨hat, Bool.eq_false_of_not_eq_true hlist⟩

/-- The name under which an entry is listed. -/
theorem own_iff : v.Own name shown ∧ ¬ v.Private name ↔
    v.kind name = .plain ∧ shown = name ∨ ∃ left, v.kind name = .version shown left := by
  constructor
  · rintro ⟨hown, hprivate⟩
    cases hown with
    | unversioned hv => exact .inl ⟨kind_of_plain hprivate fun hv' => absurd hv' (by simp [hv]), rfl⟩
    | current hv hlist hat =>
      exact .inl ⟨kind_of_plain hprivate fun _ => ⟨hat, decide_eq_false hlist⟩, rfl⟩
    | version h => exact .inr ⟨_, kind_of_displayed h⟩
  · rintro (⟨hkind, rfl⟩ | ⟨left, hkind⟩)
    · obtain ⟨hprivate, hplain⟩ := plain_of_kind hkind
      refine ⟨?_, hprivate⟩
      cases hv : v.versioning with
      | false => exact .unversioned hv
      | true => exact .current hv (of_decide_eq_false (hplain hv).2) (hplain hv).1
    · obtain ⟨base, stamp, hd, rfl, -⟩ := displayed_of_kind hkind
      refine ⟨.version hd, fun hp => ?_⟩
      have hspecial := private_iff.mp hp
      simp [kind, hspecial] at hkind

def IsVersion (v : View) (e : LocalEntry) : Prop := ∃ vername left, v.kind e.name = .version vername left

def IsPlain (v : View) (vd : Option VirtualDir) (e : LocalEntry) : Prop :=
  v.kind e.name = .plain ∧ behind vd e.name = false

theorem isVersion_iff : IsVersion v e ↔ ∃ base stamp, v.Displayed e.name base stamp := by
  constructor
  · rintro ⟨vername, left, hkind⟩
    obtain ⟨base, stamp, hd, -⟩ := displayed_of_kind hkind
    exact ⟨base, stamp, hd⟩
  · rintro ⟨base, stamp, hd⟩
    exact ⟨_, _, kind_of_displayed hd⟩

/-- An entry as it is to be seen. -/
def seenOf (v : View) (vd : Option VirtualDir) (e : LocalEntry) : Option (UInt32 × Name) :=
  match v.kind e.name with
  | .hidden => none
  | .plain => if behind vd e.name then none else some (e.ino, e.name)
  | .version vername _ => if behind vd vername then none else some (e.ino, vername)

theorem seenAs_iff : v.SeenAs vd e.name shown ↔ seenOf v vd e = some (e.ino, shown) := by
  have hparts : v.SeenAs vd e.name shown ↔ (v.Own e.name shown ∧ ¬ v.Private e.name) ∧ ¬ Covered vd shown :=
    ⟨fun h => ⟨⟨h.own, h.system⟩, h.free⟩, fun h => ⟨h.1.1, h.1.2, h.2⟩⟩
  rw [hparts, own_iff, covered_iff, seenOf]
  cases hkind : v.kind e.name with
  | hidden => simp
  | plain =>
    simp only [true_and, reduceCtorEq, exists_false, or_false, Option.ite_none_left_eq_some, Option.some.injEq,
      Prod.mk.injEq]
    constructor
    · rintro ⟨rfl, hfree⟩
      exact ⟨hfree, rfl⟩
    · rintro ⟨hfree, rfl⟩
      exact ⟨rfl, hfree⟩
  | version vername left =>
    simp only [reduceCtorEq, false_and, false_or, Kind.version.injEq, exists_and_left, exists_eq', and_true,
      Option.ite_none_left_eq_some, Option.some.injEq, Prod.mk.injEq, true_and]
    constructor
    · rintro ⟨rfl, hfree⟩
      exact ⟨hfree, rfl⟩
    · rintro ⟨hfree, rfl⟩
      exact ⟨rfl, hfree⟩

theorem ino_seenOf {x : UInt32 × Name} (h : seenOf v vd e = some x) : x.1 = e.ino := by
  unfold seenOf at h
  cases hkind : v.kind e.name with
  | hidden => simp [hkind] at h
  | plain | version vername left =>
    simp only [hkind, Option.ite_none_left_eq_some, Option.some.injEq] at h
    rw [← h.2]

theorem isSome_seenOf : (seenOf v vd e).isSome = true ↔ ∃ shown, v.SeenAs vd e.name shown := by
  simp only [seenAs_iff, Option.isSome_iff_exists]
  constructor
  · rintro ⟨x, hx⟩
    exact ⟨x.2, by rw [hx, ← ino_seenOf hx]⟩
  · rintro ⟨shown, h⟩
    exact ⟨_, h⟩

theorem seen_eq : v.seen vd = seenOf v vd := by
  funext e
  unfold seen
  split_ifs with h
  · exact (seenAs_iff.mp h.choose_spec).symm
  · rw [← isSome_seenOf, Bool.not_eq_true, Option.isSome_eq_false_iff, Option.isNone_iff_eq_none] at h
    exact h.symm

theorem isPlain_iff : IsPlain v vd e ↔ (∃ shown, v.SeenAs vd e.name shown) ∧ ¬ IsVersion v e := by
  rw [← isSome_seenOf, IsPlain, IsVersion, seenOf]
  cases hkind : v.kind e.name with
  | hidden => simp
  | plain => cases behind vd e.name <;> simp
  | version vername left => simp

end Names

/-! ## Local entries -/

section Local
variable {v : View} {vd : Option VirtualDir} {s : Bool × Name} {e : LocalEntry} {l : List LocalEntry}

/-- An entry as the loop lets it pass, under its own name. -/
def passed (v : View) (vd : Option VirtualDir) (e : LocalEntry) : Option (UInt32 × Name) :=
  match v.kind e.name with
  | .hidden => none
  | .plain => if behind vd e.name then none else some (e.ino, e.name)
  | .version vername left => if behind vd left then none else some (e.ino, vername)

def after (v : View) (s : Bool × Name) (e : LocalEntry) : Bool × Name :=
  match v.kind e.name with
  | .version vername _ => (true, vername)
  | _ => s

/-- An entry that passes as `x`, as it is shown. -/
def given (v : View) (s : Bool × Name) (e : LocalEntry) (x : UInt32 × Name) : Entry :=
  ⟨x.1, e.cookie, match v.kind e.name with
    | .plain => if s.1 then s.2 else x.2
    | _ => x.2⟩

theorem shows_eq (v : View) (vd : Option VirtualDir) (s : Bool × Name) (e : LocalEntry) :
    v.shows vd s e = (after v s e, (passed v vd e).map (given v s e)) := by
  unfold shows after passed given
  cases v.kind e.name with
  | hidden => rfl
  | plain => cases behind vd e.name <;> simp
  | version vername left => cases hb : behind vd left <;> simp [hb]

theorem shown_cons (v : View) (vd : Option VirtualDir) (s : Bool × Name) (e : LocalEntry) (l : List LocalEntry) :
    shown (v.shows vd) s (e :: l) = ((passed v vd e).map (given v s e)).toList ++ shown (v.shows vd) (after v s e) l := by
  rw [shown, shows_eq]
  cases passed v vd e <;> rfl

def NoPlain (v : View) (vd : Option VirtualDir) (s : Bool × Name) (l : List LocalEntry) : Prop :=
  s.1 = true → ∀ e ∈ l, ¬ IsPlain v vd e

theorem given_of_not_plain {x : UInt32 × Name} (hx : passed v vd e = some x) (h : s.1 = true → ¬ IsPlain v vd e) :
    given v s e x = ⟨x.1, e.cookie, x.2⟩ := by
  unfold given
  unfold IsPlain at h
  unfold passed at hx
  cases hkind : v.kind e.name with
  | hidden => rfl
  | plain =>
    simp only [hkind, true_and, Bool.not_eq_false] at h hx
    cases hs : s.1 with
    | false => rfl
    | true => simp [h hs] at hx
  | version vername left => rfl

theorem after_of_not_version (h : ¬ IsVersion v e) : after v s e = s := by
  unfold after
  cases hkind : v.kind e.name with
  | hidden | plain => rfl
  | version vername left => exact absurd ⟨_, _, hkind⟩ h

theorem noPlain_after (hs : NoPlain v vd s (e :: l)) (hl : ∀ b ∈ l, IsVersion v e → ¬ IsPlain v vd b) :
    NoPlain v vd (after v s e) l := by
  intro hafter b hb
  by_cases hversion : IsVersion v e
  · exact hl b hb hversion
  · rw [after_of_not_version hversion] at hafter
    exact hs hafter b (mem_cons_of_mem _ hb)

theorem shown_eq_filterMap (hs : NoPlain v vd s l)
    (hl : l.Pairwise fun a b => IsVersion v a → ¬ IsPlain v vd b) :
    shown (v.shows vd) s l = l.filterMap fun e => (passed v vd e).map fun x => ⟨x.1, e.cookie, x.2⟩ := by
  induction l generalizing s with
  | nil => rfl
  | cons e l ih =>
    obtain ⟨he, hl⟩ := pairwise_cons.mp hl
    rw [shown_cons, ih (noPlain_after hs he) hl, filterMap_cons]
    cases hx : passed v vd e with
    | none => rfl
    | some x =>
      have hgiven := given_of_not_plain hx fun h => hs h e mem_cons_self
      simp [hgiven]

theorem items_of_versions (hl : l.Pairwise fun a b => IsVersion v a → ¬ IsPlain v vd b) :
    (shown (v.shows vd) (false, []) l).map Entry.item = l.filterMap (passed v vd) := by
  rw [shown_eq_filterMap (fun hs => by cases hs) hl, map_filterMap]
  refine filterMap_congr fun e _ => ?_
  cases passed v vd e <;> rfl

end Local

/-! ## Positions -/

namespace LocalDir

variable {dir : LocalDir} {vd : Option VirtualDir}

theorem seekdir_suffix (dir : LocalDir) (position : ℤ) : dir.seekdir position <:+ dir.entries := drop_suffix _ _

theorem seekdir_zero (dir : LocalDir) : dir.seekdir 0 = dir.entries := by
  rw [seekdir, dir.seek_zero, drop_zero]

theorem Ordered.passed_eq (h : dir.Ordered vd) : ∀ e ∈ dir.entries, passed dir.view vd e = seenOf dir.view vd e := by
  intro e he
  unfold passed seenOf
  cases hkind : dir.view.kind e.name with
  | hidden | plain => rfl
  | version vername left =>
    obtain ⟨base, stamp, hd, rfl, rfl⟩ := displayed_of_kind hkind
    have hiff := h.hides e he base stamp hd
    rw [covered_iff, covered_iff, ← Bool.eq_iff_iff] at hiff
    simp only [hiff]

theorem Ordered.pairs (h : dir.Ordered vd) :
    dir.entries.Pairwise fun a b => IsVersion dir.view a → ¬ IsPlain dir.view vd b := by
  refine h.versions.imp fun {a b} hab ha hb => ?_
  obtain ⟨hseen, hnot⟩ := isPlain_iff.mp hb
  exact hnot (isVersion_iff.mpr (hab (isVersion_iff.mp ha) hseen))

theorem seek_of_append {front rest : List LocalEntry} {e : LocalEntry} (h : dir.entries = front ++ e :: rest) :
    dir.seek e.position = front.length + 1 := by
  have hlt : front.length < dir.entries.length := by rw [h]; simp
  have hget : dir.entries.get ⟨front.length, hlt⟩ = e := by simp [h]
  rw [← hget, dir.seek_position]

/-- A positive position that is an `int32_t` is not cut. -/
theorem cookie_of_lt {e : LocalEntry} (hpos : 0 < e.position) (hlt : e.position < 2 ^ 31) : e.cookie = e.position :=
  Int.bmod_eq_of_le (by omega) (by omega)

/-- What follows an entry is what is shown from its position on. -/
theorem Ordered.shown_resume (h : dir.Ordered vd) {position : ℤ} {l r : List Entry} {e : Entry}
    (hshown : shown (dir.view.shows vd) (false, []) (dir.seekdir position) = l ++ e :: r) :
    0 < e.cookie ∧ shown (dir.view.shows vd) (false, []) (dir.seekdir e.cookie) = r := by
  have hall (p : ℤ) := shown_eq_filterMap (s := (false, [])) (fun hs => by cases hs)
    (h.pairs.sublist (dir.seekdir_suffix p).sublist)
  rw [hall] at hshown
  obtain ⟨l1, l2, hsplit, -, h2⟩ := filterMap_eq_append_iff.mp hshown
  obtain ⟨l3, x, l4, rfl, -, hx, h4⟩ := filterMap_eq_cons_iff.mp h2
  obtain ⟨y, hy, rfl⟩ := Option.map_eq_some_iff.mp hx
  obtain ⟨front, hfront⟩ := dir.seekdir_suffix position
  have hentries : dir.entries = (front ++ l1 ++ l3) ++ x :: l4 := by
    rw [← hfront, hsplit]
    simp
  have hmem : x ∈ dir.entries := by rw [hentries]; simp
  obtain ⟨hpos, hlt⟩ := h.positions x hmem (isSome_seenOf.mp (by rw [← h.passed_eq x hmem, hy]; rfl))
  have hcookie := cookie_of_lt hpos hlt
  change 0 < x.cookie ∧ shown _ _ (dir.seekdir x.cookie) = r
  refine ⟨hcookie ▸ hpos, ?_⟩
  rw [hall, hcookie, seekdir, seek_of_append hentries, hentries, ← h4, append_cons, drop_left' (by simp; omega)]

end LocalDir

/-! ## Directories -/

theorem split_append {α : Type} {a b l r : List α} {e : α} (h : a ++ b = l ++ e :: r) :
    (∃ r', a = l ++ e :: r' ∧ r = r' ++ b) ∨ ∃ l', b = l' ++ e :: r := by
  rcases append_eq_append_iff.mp h with ⟨l', -, hb⟩ | ⟨c, ha, hb⟩
  · exact Or.inr ⟨l', hb⟩
  · cases c with
    | nil => exact Or.inr ⟨[], hb.symm⟩
    | cons x c =>
      obtain ⟨rfl, hr⟩ := cons.inj hb
      exact Or.inl ⟨c, ha, hr⟩

namespace Directory

variable {d : Directory}

def Present (d : Directory) : Prop := ∀ dir, d.body = .inode dir → dir.view.past = false

def shownVirtual (d : Directory) (cookie : ℤ) : List Entry :=
  match d.virtual with
  | none => []
  | some vd => if 0 < cookie then [] else shown (counting (fun _ => false) (-1)) cookie (vd.items.drop (-cookie).toNat)

def shownBody (d : Directory) (cookie : ℤ) : List Entry :=
  match d.virtual, d.body with
  | _, .none => []
  | none, .conflict ino parentIno members =>
    shown (counting (fun _ => false) 1) (max cookie 0)
      (((ino, [DOT]) :: (parentIno, [DOT, DOT]) :: members).drop (max cookie 0).toNat)
  | some vd, .conflict ino parentIno members =>
    shown (counting vd.hasName 1) (max cookie 2)
      (((ino, [DOT]) :: (parentIno, [DOT, DOT]) :: members).drop (max cookie 2).toNat)
  | vd, .inode dir => shown (dir.view.shows vd) (false, []) (dir.seekdir (max cookie 0))

def shownFrom (d : Directory) (cookie : ℤ) : List Entry := d.shownVirtual cookie ++ d.shownBody cookie

theorem readVirtualDir_fill (filldir : Filldir) (cookie : ℤ) {vd : VirtualDir} (h : d.virtual = some vd) :
    readVirtualDir filldir vd cookie [] = fill filldir (d.shownVirtual cookie) [] := by
  unfold readVirtualDir shownVirtual
  rw [h]
  simp only
  split_ifs
  · rfl
  · exact scan_eq_fill ..

theorem localReaddir_fill {dir : LocalDir} (hpast : dir.view.past = false) (vd : Option VirtualDir) (filldir : Filldir)
    (s : State) (list : List Entry) (eof : Bool) :
    localReaddir dir vd filldir s list eof =
      some ⟨ZFS_OK, (fill filldir (shown (dir.view.shows vd) (false, []) (dir.seekdir (max s.cookie 0))) list).1,
        (fill filldir (shown (dir.view.shows vd) (false, []) (dir.seekdir (max s.cookie 0))) list).2, s.dirhtab⟩ := by
  simp only [localReaddir, hpast, Bool.false_eq_true, if_false, ← scan_eq_fill]

/-- What a call of `zfs_readdir` on a present directory does. -/
structure Fills (d : Directory) (filldir : Filldir) (s : State) (r : Result) : Prop where
  entries : r.entries = (fill filldir (d.shownFrom s.cookie) []).1
  dirhtab : r.dirhtab = s.dirhtab
  eof : (d.body = .none → s.cookie ≤ 0) → r.eof = (fill filldir (d.shownFrom s.cookie) []).2
  code : (fill filldir (d.shownFrom s.cookie) []).2 = true → r.code = ZFS_OK

theorem zfsReaddir_fill (hp : d.Present) (filldir : Filldir) (s : State) :
    ∃ r, d.zfsReaddir filldir s = some r ∧ d.Fills filldir s r := by
  obtain ⟨virtual, body, hsome⟩ := d
  cases virtual with
  | none =>
    cases body with
    | none => exact absurd rfl (hsome rfl)
    | conflict ino parentIno members =>
      refine ⟨_, rfl, ?_, rfl, fun _ => ?_, ?_⟩
      all_goals simp only [scan_eq_fill, shownFrom, shownVirtual, shownBody, nil_append]
      exact fun h => by simp [h]
    | inode dir => exact ⟨_, localReaddir_fill (hp dir rfl) none filldir s [] false, rfl, rfl, fun _ => rfl, fun _ => rfl⟩
  | some vd =>
    simp only [zfsReaddir, readVirtualDir_fill (d := ⟨some vd, body, hsome⟩) filldir s.cookie rfl]
    have happend := @fill_append Entry filldir (shownVirtual ⟨some vd, body, hsome⟩ s.cookie)
      (shownBody ⟨some vd, body, hsome⟩ s.cookie) []
    cases hall : (fill filldir (shownVirtual ⟨some vd, body, hsome⟩ s.cookie) []).2 with
    | false =>
      rw [hall, if_neg Bool.false_ne_true] at happend
      refine ⟨_, by simp only [Bool.not_false, if_true]; rfl, ?_, rfl, fun _ => ?_, fun h => ?_⟩
      · rw [shownFrom, happend]
      · rw [shownFrom, happend, hall]
      · rw [shownFrom, happend, hall] at h
        cases h
    | true =>
      rw [hall, if_pos rfl] at happend
      simp only [Bool.not_true, Bool.false_eq_true, if_false]
      cases body with
      | none =>
        refine ⟨_, rfl, ?_, rfl, fun hcookie => ?_, fun _ => rfl⟩
        · rw [shownFrom, happend]
          rfl
        · rw [shownFrom, happend]
          simpa [shownBody, fill] using hcookie rfl
      | conflict ino parentIno members =>
        refine ⟨_, rfl, ?_, rfl, fun _ => ?_, ?_⟩
        all_goals
          rw [shownFrom, happend]
          simp only [readMembers, scan_eq_fill, shownBody]
        exact fun h => by simp [h]
      | inode dir =>
        refine ⟨_, localReaddir_fill (hp dir rfl) (some vd) filldir s _ _, ?_, rfl, fun _ => ?_, fun _ => rfl⟩
        · rw [shownFrom, happend]
          rfl
        · rw [shownFrom, happend]
          rfl

/-- The last cookie and all the entries after some calls on a present directory. -/
def listed (d : Directory) (filldir : ℕ → Filldir) : ℕ → ℤ × List Entry :=
  calls Entry.cookie (fun n cookie => (fill (filldir n) (d.shownFrom cookie) []).1) 0

theorem readdirs_eq (hp : d.Present) (filldir : ℕ → Filldir) (n : ℕ) :
    d.readdirs filldir n = some (⟨(d.listed filldir n).1, none⟩, (d.listed filldir n).2) := by
  induction n with
  | zero => rfl
  | succ n ih =>
    obtain ⟨r, hr, hfills⟩ := zfsReaddir_fill hp (filldir n) ⟨(d.listed filldir n).1, none⟩
    rw [readdirs, ih]
    simp only [Option.bind_eq_bind, Option.bind_some, hr, hfills.entries, hfills.dirhtab]
    rfl

/-! ## The next call -/

theorem shownVirtual_resume {cookie : ℤ} {l r : List Entry} {e : Entry} (h : d.shownVirtual cookie = l ++ e :: r) :
    d.virtual ≠ none ∧ cookie ≤ 0 ∧ e.cookie < 0 ∧ d.shownVirtual e.cookie = r := by
  unfold shownVirtual at h ⊢
  cases hvd : d.virtual with
  | none =>
    rw [hvd] at h
    cases l <;> cases h
  | some vd =>
    rw [hvd] at h
    simp only at h ⊢
    split_ifs at h with hpos
    · cases l <;> cases h
    · have hcookie := shown_counting_cookie h
      have hrest := shown_counting_rest (pairwise_of_forall fun _ _ hf => by cases hf) h
      have hneg : e.cookie < 0 := by omega
      have hstart : (-e.cookie).toNat = (-cookie).toNat + (l.length + 1) := by omega
      refine ⟨by simp, by omega, hneg, ?_⟩
      rw [if_neg (by omega), hstart, hrest, drop_drop]

theorem shownVirtual_of_pos {cookie : ℤ} (h : 0 < cookie) : d.shownVirtual cookie = [] := by
  unfold shownVirtual
  cases d.virtual with
  | none => rfl
  | some vd => exact if_pos h

theorem counting_resume {hidden : Name → Bool} {items : List (UInt32 × Name)} {cookie : ℤ} {l r : List Entry} {e : Entry}
    (hcookie : 0 ≤ cookie)
    (hlast : (items.drop cookie.toNat).Pairwise fun a b => hidden a.2 = true → hidden b.2 = true)
    (h : shown (counting hidden 1) cookie (items.drop cookie.toNat) = l ++ e :: r) :
    cookie < e.cookie ∧ shown (counting hidden 1) e.cookie (items.drop e.cookie.toNat) = r := by
  have hnext := shown_counting_cookie h
  have hstart : e.cookie.toNat = cookie.toNat + (l.length + 1) := by omega
  refine ⟨by omega, ?_⟩
  rw [hstart, shown_counting_rest hlast h, drop_drop]

theorem drop_two {α : Type} (a b : α) (l : List α) {n : ℕ} (hn : 2 ≤ n) : (a :: b :: l).drop n = l.drop (n - 2) := by
  obtain ⟨k, rfl⟩ := Nat.exists_eq_add_of_le hn
  simp [Nat.add_comm 2 k]

theorem hasName_iff {vd : VirtualDir} {name : Name} : vd.hasName name = true ↔ name ∈ vd.subdirs.map Prod.snd := by
  simp [VirtualDir.hasName]

theorem shownBody_inode {virtual : Option VirtualDir} {dir : LocalDir} {hsome} (cookie : ℤ) :
    shownBody ⟨virtual, .inode dir, hsome⟩ cookie =
      shown (dir.view.shows virtual) (false, []) (dir.seekdir (max cookie 0)) := by
  cases virtual <;> rfl

theorem listable_inode {virtual : Option VirtualDir} {dir : LocalDir} {hsome}
    (h : Listable ⟨virtual, .inode dir, hsome⟩) : dir.Ordered virtual := by
  cases virtual <;> exact h

theorem Listable.present (h : d.Listable) : d.Present := by
  obtain ⟨virtual, body, hsome⟩ := d
  rintro dir rfl
  exact (listable_inode h).present

theorem shownBody_resume (h : d.Listable) {cookie : ℤ} {l r : List Entry} {e : Entry}
    (hbody : d.shownBody cookie = l ++ e :: r) : 0 < e.cookie ∧ d.shownBody e.cookie = r := by
  obtain ⟨virtual, body, hsome⟩ := d
  cases body with
  | none => cases virtual <;> cases l <;> cases hbody
  | conflict ino parentIno members =>
    cases virtual with
    | none =>
      obtain ⟨hlt, hrest⟩ :=
        counting_resume (le_max_right cookie 0) (pairwise_of_forall fun _ _ hf => by cases hf) hbody
      have hpos : 0 < e.cookie := (le_max_right cookie 0).trans_lt hlt
      refine ⟨hpos, ?_⟩
      simp only [shownBody, max_eq_left hpos.le]
      exact hrest
    | some vd =>
      have hstart : 2 ≤ (max cookie 2).toNat := by omega
      have hpairs : (((ino, [DOT]) :: (parentIno, [DOT, DOT]) :: members).drop (max cookie 2).toNat).Pairwise
          fun a b => vd.hasName a.2 = true → vd.hasName b.2 = true := by
        rw [drop_two _ _ _ hstart]
        simp only [hasName_iff]
        exact Pairwise.sublist (drop_sublist _ _) h
      obtain ⟨hlt, hrest⟩ := counting_resume ((by norm_num : (0 : ℤ) ≤ 2).trans (le_max_right cookie 2)) hpairs hbody
      have htwo : 2 < e.cookie := (le_max_right cookie 2).trans_lt hlt
      refine ⟨by omega, ?_⟩
      simp only [shownBody, max_eq_left htwo.le]
      exact hrest
  | inode dir =>
    rw [shownBody_inode] at hbody
    obtain ⟨hpos, hrest⟩ := (listable_inode h).shown_resume hbody
    refine ⟨hpos, ?_⟩
    rw [shownBody_inode, max_eq_left hpos.le]
    exact hrest

/-- All cookies of the virtual directory leave the start of what is behind it. -/
theorem shownBody_of_nonpos (h : d.virtual ≠ none) {c c' : ℤ} (hc : c ≤ 0) (hc' : c' ≤ 0) :
    d.shownBody c = d.shownBody c' := by
  obtain ⟨virtual, body, hsome⟩ := d
  have htwo : max c 2 = max c' 2 := by omega
  have hzero : max c 0 = max c' 0 := by omega
  cases virtual with
  | none => exact absurd rfl h
  | some vd =>
    cases body with
    | none => rfl
    | conflict ino parentIno members => simp only [shownBody, htwo]
    | inode dir => simp only [shownBody, hzero]

theorem shownFrom_resume (h : d.Listable) {cookie : ℤ} {l r : List Entry} {e : Entry}
    (hfrom : d.shownFrom cookie = l ++ e :: r) : (d.body = .none → e.cookie ≤ 0) ∧ d.shownFrom e.cookie = r := by
  rcases split_append hfrom with ⟨r', hvirtual, hr⟩ | ⟨l', hbody⟩
  · obtain ⟨hvd, hcookie, hneg, hrest⟩ := shownVirtual_resume hvirtual
    refine ⟨fun _ => hneg.le, ?_⟩
    rw [shownFrom, hrest, hr, shownBody_of_nonpos hvd hneg.le hcookie]
  · obtain ⟨hpos, hrest⟩ := shownBody_resume h hbody
    refine ⟨fun hnone => ?_, ?_⟩
    · rw [shownBody, hnone] at hbody
      cases hd : d.virtual <;> rw [hd] at hbody <;> cases l' <;> cases hbody
    · rw [shownFrom, shownVirtual_of_pos hpos, hrest, nil_append]

/-! ## Names of all entries -/

theorem shownVirtual_items (d : Directory) :
    (d.shownVirtual 0).map Entry.item = d.virtual.elim [] VirtualDir.items := by
  unfold shownVirtual
  cases d.virtual with
  | none => rfl
  | some vd => simp [shown_counting_items]

def visible (d : Directory) : List (UInt32 × Name) :=
  d.virtual.elim [] VirtualDir.items ++
    match d.virtual, d.body with
    | _, .none => []
    | none, .conflict ino parentIno members => (ino, [DOT]) :: (parentIno, [DOT, DOT]) :: members
    | some vd, .conflict _ _ members => members.filter (!vd.hasName ·.2)
    | vd, .inode dir => dir.entries.filterMap (seenOf dir.view vd)

theorem lists_iff (hp : d.Present) {list : List (UInt32 × Name)} : d.Lists list ↔ list.Perm d.visible := by
  obtain ⟨virtual, body, hsome⟩ := d
  cases body with
  | none => cases virtual <;> simp [Lists, visible]
  | conflict ino parentIno members =>
    cases virtual with
    | none => simp [Lists, visible]
    | some vd =>
      have hfilter : (members.filter fun m => m.2 ∉ vd.subdirs.map Prod.snd) = members.filter (!vd.hasName ·.2) := by
        refine filter_congr fun m _ => ?_
        rw [Bool.eq_iff_iff, decide_eq_true_eq, Bool.not_eq_true', ← Bool.not_eq_true, hasName_iff]
      simp only [Lists, visible, hfilter, Option.elim_some]
  | inode dir => cases virtual <;> simp [Lists, visible, hp dir rfl, seen_eq]

theorem shownFrom_items (h : d.Listable) : (d.shownFrom 0).map Entry.item = d.visible := by
  rw [shownFrom, map_append, shownVirtual_items, visible]
  obtain ⟨virtual, body, hsome⟩ := d
  cases body with
  | none => cases virtual <;> simp [shownBody]
  | conflict ino parentIno members => cases virtual <;> simp [shownBody, shown_counting_items]
  | inode dir =>
    have hordered := listable_inode h
    have hitems : (shownBody ⟨virtual, .inode dir, hsome⟩ 0).map Entry.item =
        dir.entries.filterMap (seenOf dir.view virtual) := by
      rw [shownBody_inode, max_self, dir.seekdir_zero, items_of_versions hordered.pairs]
      exact filterMap_congr hordered.passed_eq
    rw [hitems]

/-! ## Sequences of calls -/

def Stands (d : Directory) (cookie : ℤ) : Prop :=
  (d.body = .none → cookie ≤ 0) ∧ d.shownFrom cookie <:+ d.shownFrom 0

theorem listed_spec (h : d.Listable) {filldir : ℕ → Filldir} (hfits : ∀ n, d.Fits (filldir n)) (n : ℕ) :
    d.Stands (d.listed filldir n).1 ∧
      (d.listed filldir n).2 ++ d.shownFrom (d.listed filldir n).1 = d.shownFrom 0 ∧
      (d.shownFrom (d.listed filldir n).1).length ≤ (d.shownFrom 0).length - n := by
  apply calls_spec
  · exact ⟨fun _ => le_rfl, suffix_refl _⟩
  · refine fun n c hc => ⟨?_, fun hne => fill_ne_nil hne fun e he => ?_⟩
    · obtain ⟨new, hnew, hpre, -⟩ := @fill_spec Entry (filldir n) (d.shownFrom c) []
      rw [hnew]
      exact hpre
    · refine hfits n _ ((lists_iff h.present).mpr (Perm.refl _)) e ?_
      rw [← shownFrom_items h]
      exact mem_map_of_mem (hc.2.mem he)
  · intro c l e r hc hlist
    obtain ⟨hcookie, hrest⟩ := shownFrom_resume h hlist
    refine ⟨⟨hcookie, ?_⟩, hrest⟩
    rw [hrest]
    refine IsSuffix.trans ?_ hc.2
    rw [hlist]
    exact ⟨l ++ [e], by simp⟩

/-! ## Buffers -/

theorem fits_filldirArray : d.Fits filldirArray := fun _ _ _ _ => rfl

def entryLayout (e : Entry) : Layout :=
  (Layout.scalar 4 e.ino.toNat).seq <|
    (Layout.scalar 4 (Int32.ofInt e.cookie).toUInt32.toNat).seq (counted e.name.length (e.name ++ [0]))

/-- Only the first number may have to be aligned. -/
theorem stop_entryLayout (e : Entry) (pos : ℕ) : (entryLayout e).stop pos = align 4 pos + 13 + e.name.length := by
  have hdvd : 4 ∣ align 4 pos := Nat.dvd_mul_left 4 _
  have hcookie : align 4 (align 4 pos + 4) = align 4 pos + 4 := align_of_dvd (by decide) (by omega)
  have hname : align 4 (align 4 pos + 4 + 4) = align 4 pos + 4 + 4 := align_of_dvd (by decide) (by omega)
  simp only [entryLayout, counted, Layout.stop_seq, Layout.stop_scalar (by decide : 0 < 4), Layout.stop_raw, hcookie,
    hname, length_append, length_singleton]
  omega

theorem encodeEntry_eq {dc : DC} (hdc : dc.Ready) {e : Entry} (hroom : (entryLayout e).stop dc.curLength ≤ dc.maxLength) :
    encodeEntry e dc = (some (), dc.add (entryLayout e dc.curLength)) := by
  have hsize := hdc.size
  rw [stop_entryLayout] at hroom
  unfold ZFS_DC_SIZE at hsize
  have hname := exact_string (by omega) (⟨e.name, le_rfl⟩ : Limited e.name.length)
  have hexact := (exact_uint32 e.ino).seq (f := fun _ => _) ((exact_int32 (Int32.ofInt e.cookie)).seq (f := fun _ => _) hname)
  exact hexact.writes dc hdc (by rwa [← stop_entryLayout] at hroom)

theorem fits_filldirEncode {dc : DC} (hdc : dc.Ready) {count : ℕ} (hroom : ∀ list, d.Lists list → ∀ x ∈ list,
    align 4 dc.curLength + 13 + x.2.length ≤ min dc.maxLength (dc.curLength + count)) :
    d.Fits (filldirEncode dc count) := by
  intro list hlist e he
  obtain ⟨hmax, hcount⟩ := le_min_iff.mp (hroom list hlist _ he)
  have hstop := stop_entryLayout e dc.curLength
  simp only [Entry.item] at hmax hcount
  rw [← hstop] at hmax hcount
  unfold filldirEncode
  simp only [foldl_nil, encodeEntry_eq hdc hmax, decide_eq_true_eq, DC.add]
  rw [Layout.stop] at hcount
  omega

/-! ## The first calls -/

/-- All that some calls gave. -/
def items (d : Directory) (filldir : ℕ → Filldir) (n : ℕ) : Option (List (UInt32 × Name)) :=
  (d.readdirs filldir n).map (·.2.map Entry.item)

theorem readdirs_prefix {filldir : ℕ → Filldir} {m n : ℕ} (h : m ≤ n) {s : State} {list : List Entry}
    (hn : d.readdirs filldir n = some (s, list)) :
    ∃ s' list', d.readdirs filldir m = some (s', list') ∧ list' <+: list := by
  induction n, h using Nat.le_induction generalizing s list with
  | base => exact ⟨s, list, hn, prefix_refl _⟩
  | succ n _ ih =>
    simp only [readdirs, Option.bind_eq_bind, Option.bind_eq_some_iff] at hn
    obtain ⟨⟨s', list'⟩, hn', r, -, heq⟩ := hn
    obtain ⟨s'', list'', hm, hpre⟩ := ih hn'
    obtain ⟨-, rfl⟩ := Prod.mk.inj (Option.some.inj heq)
    exact ⟨s'', list'', hm, hpre.trans (prefix_append _ _)⟩

/-- What the first calls give belongs to a listing. -/
theorem RightListing.lists_items {filldir : ℕ → Filldir} (h : d.RightListing filldir) {n : ℕ}
    {first : List (UInt32 × Name)} (hfirst : d.items filldir n = some first) : ∃ rest, d.Lists (first ++ rest) := by
  obtain ⟨N, hN⟩ := h
  obtain ⟨s, list, -, hlist, hlists, -⟩ := hN (max N n) (le_max_left N n)
  obtain ⟨s', list', hn, rest, rfl⟩ := readdirs_prefix (le_max_right N n) hlist
  rw [items, hn, Option.map_some, Option.some_inj] at hfirst
  rw [map_append, hfirst] at hlists
  exact ⟨_, hlists⟩

theorem RightListing.mem_visible {filldir : ℕ → Filldir} (h : d.RightListing filldir) (hp : d.Present) {n : ℕ}
    {first : List (UInt32 × Name)} (hfirst : d.items filldir n = some first) :
    first.length ≤ d.visible.length ∧ ∀ x ∈ first, x ∈ d.visible := by
  obtain ⟨rest, hlists⟩ := h.lists_items hfirst
  have hperm := (lists_iff hp).mp hlists
  refine ⟨?_, fun x hx => hperm.subset (mem_append_left _ hx)⟩
  rw [← hperm.length_eq, length_append]
  exact Nat.le_add_right _ _

theorem mem_of_existed {virtual : Option VirtualDir} {dir : LocalDir} {hsome} {list : List (UInt32 × Name)}
    (h : Lists ⟨virtual, .inode dir, hsome⟩ list) (hpast : dir.view.past = true) {e : LocalEntry} (he : e ∈ dir.entries)
    {name : Name} (hname : dir.view.Existed virtual e name) : name ∈ list.map Prod.snd := by
  have hlists : ∃ own : List (UInt32 × Name), list.Perm (virtual.elim [] VirtualDir.items ++ own) ∧
      ∀ e ∈ dir.entries, ∀ name, dir.view.Existed virtual e name → name ∈ own.map Prod.snd := by
    cases virtual
    all_goals
      simp only [Lists, if_pos hpast] at h
      obtain ⟨own, hperm, -, -, hall⟩ := h
      exact ⟨own, hperm, hall⟩
  obtain ⟨own, hperm, hall⟩ := hlists
  rw [(hperm.map Prod.snd).mem_iff, map_append]
  exact mem_append_right _ (hall e he name hname)

end Directory

/-! ## Listings -/

/-- A directory whose entries have these positions. -/
def localDir (view : View) (positions : List ℤ) (entries : List LocalEntry)
    (h : ∀ k : Fin entries.length, (if (entries.get k).position = 0 then 0
      else positions.idxOf (entries.get k).position + 1) = k + 1) : LocalDir where
  entries := entries
  view := view
  seek position := if position = 0 then 0 else positions.idxOf position + 1
  slots := id
  seek_zero := rfl
  seek_position := h
  slots_perm _ := .refl _

/-- The root of a volume, with versions. -/
def rootView (dirstamp : ℤ) : View where
  volumeRoot := true
  fromThisNode := false
  versioning := true
  verdisplay := true
  dirstamp := dirstamp
  displayFile := false
  timestamp _ := [49]

/-- A root with `.zfs`, `a`, `b` and its version `b@1`. -/
def sampleEntries : List LocalEntry :=
  [⟨3, 1, [46], none⟩, ⟨1, 2, [46, 46], none⟩, ⟨4, 3, [46, 122, 102, 115], none⟩, ⟨5, 5, [97], none⟩, ⟨6, 8, [98], none⟩,
    ⟨7, 9, [98, 64, 49], none⟩]

/-- They are behind a virtual directory with `a`. -/
def sample : Directory where
  virtual := some ⟨1, 1, [(2, [97])]⟩
  body := .inode (localDir (rootView 0) [1, 2, 3, 5, 8, 9] sampleEntries (by decide))
  somewhere := by simp

/-- Two calls of another node have room for one entry each, and then the node itself goes on. -/
def sampleBuffers (n : ℕ) : Filldir :=
  if n < 2 then filldirEncode ⟨fun _ => 0, 0, ZFS_DC_SIZE, 0⟩ 24 else filldirArray

/-! ## Listings that are wrong -/

def unlimited (_ : ℕ) : Filldir := fun _ _ => true

def oneEntry (_ : ℕ) : Filldir := fun list _ => list.isEmpty

/-- A version `f@1` and then a file `g`. -/
def versionFirst : Directory where
  virtual := none
  body := .inode (localDir (rootView 0) [10, 20] [⟨1, 10, [102, 64, 49], none⟩, ⟨2, 20, [103], none⟩] (by decide))
  somewhere := by simp

/-- A conflict with members `a` and `b` behind a virtual directory with a subdirectory `a`. -/
def hiddenFirst : Directory where
  virtual := some ⟨1, 1, [(2, [97])]⟩
  body := .conflict 3 1 [(4, [97]), (5, [98])]
  somewhere := by simp

/-- The position of the last entry is that at the end of a directory of ext4. -/
def farPosition : Directory where
  virtual := none
  body := .inode (localDir (rootView 0) [1, 2 ^ 63 - 1] [⟨1, 1, [102], none⟩, ⟨2, 2 ^ 63 - 1, [103], none⟩] (by decide))
  somewhere := by simp

/-- A version `f@1` behind a virtual directory with a subdirectory of this name. -/
def coveredVersion : Directory where
  virtual := some ⟨1, 1, [(2, [102, 64, 49])]⟩
  body := .inode (localDir (rootView 0) [1] [⟨3, 1, [102, 64, 49], none⟩] (by decide))
  somewhere := by simp

/-- A directory of the past with a file `f`. -/
def pastDirectory : Directory where
  virtual := none
  body := .inode (localDir (rootView 50) [1, 2, 3]
    [⟨1, 1, [46], none⟩, ⟨1, 2, [46, 46], none⟩, ⟨2, 3, [102], some 10⟩] (by decide))
  somewhere := by simp

end ZFS.Readdir
