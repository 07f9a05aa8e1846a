import ZlomekFS.Spec.Journal

/-! The journal keeps what matters of the history of a directory. -/

namespace ZFS
open Chains List

/-! ## The chain and the hash table -/

namespace Journal

theorem holds_create : create.Holds [] := ⟨Chain.holds_nil, by simp [create]⟩

section Holds
variable {j : Journal} {l : List (ℕ × JournalEntry)}

theorem Holds.unique (h : j.Holds l) {a b : ℕ × JournalEntry} (ha : a ∈ l) (hb : b ∈ l) (hk : a.2.key = b.2.key) :
    a = b := by
  have h1 := (h.htab a.2.key a.1).mpr ⟨a.2, ha, rfl⟩
  have h2 := (h.htab a.2.key b.1).mpr ⟨b.2, hb, hk.symm⟩
  exact inj_on_of_nodup_map h.chain.nodup ha hb (Option.some.inj (h1.symm.trans h2))

theorem Holds.eraseKey_none (h : j.Holds l) {key : JournalKey} (hk : j.htab key = none) :
    eraseKey (l.map Prod.snd) key = l.map Prod.snd := by
  refine filter_eq_self.mpr fun e he => ?_
  obtain ⟨⟨p, e'⟩, hp, rfl⟩ := mem_map.mp he
  have hne : e'.key ≠ key := fun heq => by
    have := (h.htab key p).mpr ⟨e', hp, heq⟩
    rw [hk] at this
    cases this
  simpa using hne

theorem Holds.split (h : j.Holds l) {key : JournalKey} {p : ℕ} (hk : j.htab key = some p) :
    ∃ A e B, l = A ++ (p, e) :: B ∧ e.key = key ∧ (∀ a ∈ A ++ B, a.2.key ≠ key) := by
  obtain ⟨e, he, hekey⟩ := (h.htab key p).mp hk
  obtain ⟨A, B, rfl⟩ := append_of_mem he
  refine ⟨A, e, B, rfl, hekey, fun a ha hakey => ?_⟩
  have hmem : a ∈ A ++ (p, e) :: B := ((sublist_cons_self (p, e) B).append_left A).subset ha
  have heq := h.unique hmem he (hakey.trans hekey.symm)
  exact h.chain.not_mem (mem_map.mpr ⟨a, ha, by rw [heq]⟩)

theorem eraseKey_split {A B : List (ℕ × JournalEntry)} {p : ℕ} {e : JournalEntry} {key : JournalKey} (he : e.key = key)
    (hne : ∀ a ∈ A ++ B, a.2.key ≠ key) :
    eraseKey ((A ++ (p, e) :: B).map Prod.snd) key = (A ++ B).map Prod.snd := by
  have hkeep : eraseKey ((A ++ B).map Prod.snd) key = (A ++ B).map Prod.snd := by
    refine filter_eq_self.mpr fun x hx => ?_
    obtain ⟨a, ha, rfl⟩ := mem_map.mp hx
    simpa using hne a ha
  rw [← hkeep]
  simp [eraseKey, he]

theorem Holds.delete (h : j.Holds l) {key : JournalKey} {p : ℕ} (hk : j.htab key = some p) :
    ∃ l', Holds ⟨j.chain.unlink p, Function.update j.htab key none⟩ l' ∧
      l'.map Prod.snd = eraseKey (l.map Prod.snd) key ∧ ∀ a ∈ l', a ∈ l ∧ a.2.key ≠ key := by
  obtain ⟨A, e, B, rfl, he, hne⟩ := h.split hk
  have hsub := (sublist_cons_self (p, e) B).append_left A
  refine ⟨A ++ B, ⟨h.chain.unlink, fun key' p' => ?_⟩, (eraseKey_split he hne).symm,
    fun a ha => ⟨hsub.subset ha, hne a ha⟩⟩
  by_cases hkey : key' = key
  · subst hkey
    simp only [Function.update_self, reduceCtorEq, false_iff]
    rintro ⟨e', he', hk'⟩
    exact hne _ he' hk'
  · dsimp only
    rw [Function.update_of_ne hkey, h.htab]
    refine exists_congr fun e' => and_congr_left fun hk' => ?_
    simp only [mem_append, mem_cons]
    have hother : (p', e') ≠ (p, e) := fun heq => hkey (by rw [← hk', (Prod.mk.inj heq).2, he])
    tauto

theorem Holds.append (h : j.Holds l) {addr : ℕ} (ha : addr ∉ l.map Prod.fst) {e : JournalEntry}
    (hk : j.htab e.key = none) :
    Holds ⟨j.chain.append addr e, Function.update j.htab e.key (some addr)⟩ (l ++ [(addr, e)]) := by
  refine ⟨h.chain.append ha e, fun key p => ?_⟩
  by_cases hkey : key = e.key
  · subst hkey
    dsimp only
    rw [Function.update_self, Option.some.injEq]
    constructor
    · rintro rfl
      exact ⟨e, by simp, rfl⟩
    · rintro ⟨e', he', hk'⟩
      rcases mem_append.mp he' with he' | he'
      · have := (h.htab e.key p).mpr ⟨e', he', hk'⟩
        rw [hk] at this
        cases this
      · simp only [mem_singleton, Prod.mk.injEq] at he'
        exact he'.1.symm
  · dsimp only
    rw [Function.update_of_ne hkey, h.htab]
    refine exists_congr fun e' => and_congr_left fun hk' => ?_
    have hother : (p, e') ≠ (addr, e) := fun heq => hkey (by rw [← hk', (Prod.mk.inj heq).2])
    simp [hother]

theorem Holds.replace (h : j.Holds l) {addr : ℕ} (ha : j.chain.node addr = none) (e : JournalEntry) :
    ∃ l', (j.replace addr e).Holds l' ∧ l'.map Prod.snd = eraseKey (l.map Prod.snd) e.key ++ [e] := by
  have hfresh := h.chain.fresh ha
  unfold Journal.replace
  cases hk : j.htab e.key with
  | none =>
    refine ⟨_, h.append hfresh hk, ?_⟩
    rw [h.eraseKey_none hk, map_append]
    rfl
  | some old =>
    obtain ⟨l', h', hl', hsub⟩ := h.delete hk
    have hfresh' : addr ∉ l'.map Prod.fst := fun hmem => by
      obtain ⟨a, ha', rfl⟩ := mem_map.mp hmem
      exact hfresh (mem_map_of_mem (hsub a ha').1)
    have h'' := h'.append hfresh' (Function.update_self ..)
    rw [Function.update_idem] at h''
    exact ⟨_, h'', by rw [map_append, hl']; rfl⟩

/-- `journal_insert` does to the entries what the function on lists does. -/
theorem Holds.insert (h : j.Holds l) {addr : ℕ} (ha : j.chain.node addr = none) (e : JournalEntry) :
    ∃ l', (j.insert addr e).Holds l' ∧ l'.map Prod.snd = journalInsert (l.map Prod.snd) e := by
  unfold Journal.insert journalInsert
  cases hop : e.oper with
  | add => simpa using h.replace ha e
  | del =>
    simp only [true_and]
    cases hk : j.htab (.add, e.name) with
    | none =>
      have hnot : ¬ ∃ a ∈ l.map Prod.snd, a.key = (.add, e.name) := by
        rintro ⟨a, ha', hkey⟩
        obtain ⟨⟨p, a⟩, hp, rfl⟩ := mem_map.mp ha'
        have := (h.htab _ p).mpr ⟨a, hp, hkey⟩
        rw [hk] at this
        cases this
      rw [if_neg hnot, Journal.delete, hk]
      exact h.replace ha e
    | some p =>
      obtain ⟨a, ha', hkey⟩ := (h.htab _ p).mp hk
      obtain ⟨l', h', hl', -⟩ := h.delete hk
      rw [if_pos ⟨a, mem_map_of_mem (f := Prod.snd) ha', hkey⟩, Journal.delete, hk]
      exact ⟨l', h', hl'⟩

end Holds

end Journal

/-! ## Entries of one name -/

/-- Of two entries with one name the first deletes it and the second adds it; so there is at most one
entry of each kind for a name. -/
def Compact (l : List JournalEntry) : Prop := l.Pairwise fun a b => a.name = b.name → a.oper = .del ∧ b.oper = .add

theorem compact_journalInsert {l : List JournalEntry} (h : Compact l) (e : JournalEntry) :
    Compact (journalInsert l e) := by
  unfold journalInsert
  split_ifs with hann
  · exact h.filter _
  · refine pairwise_append.mpr ⟨h.filter _, by simp, fun a ha b hb hname => ?_⟩
    rw [mem_singleton] at hb
    subst hb
    obtain ⟨ha, hkey⟩ := mem_filter.mp ha
    have hoper : a.oper ≠ b.oper := fun heq => by simp [JournalEntry.key, heq, hname] at hkey
    cases hb : b.oper with
    | add =>
      cases ha' : a.oper with
      | add => exact absurd (ha'.trans hb.symm) hoper
      | del => exact ⟨rfl, rfl⟩
    | del =>
      cases ha' : a.oper with
      | add => exact absurd ⟨hb, a, ha, by rw [JournalEntry.key, ha', hname]⟩ hann
      | del => exact absurd (ha'.trans hb.symm) hoper

def named (l : List JournalEntry) (n : Name) : List JournalEntry := l.filter (·.name = n)

theorem named_eraseKey (l : List JournalEntry) (key : JournalKey) (n : Name) :
    named (eraseKey l key) n = eraseKey (named l n) key := by
  unfold named eraseKey
  rw [filter_filter, filter_filter]
  exact filter_congr fun e _ => Bool.and_comm _ _

theorem eraseKey_named_of_ne {key : JournalKey} {n : Name} (h : key.2 ≠ n) (l : List JournalEntry) :
    eraseKey (named l n) key = named l n := by
  refine filter_eq_self.mpr fun e he => ?_
  have hname : e.name = n := by simpa using (mem_filter.mp he).2
  have hne : e.key ≠ key := fun heq => h (by rw [← heq, ← hname]; rfl)
  simpa using hne

theorem named_journalInsert (l : List JournalEntry) (e : JournalEntry) (n : Name) :
    named (journalInsert l e) n = if e.name = n then journalInsert (named l n) e else named l n := by
  have hmem : (∃ a ∈ named l e.name, a.key = (.add, e.name)) ↔ ∃ a ∈ l, a.key = (.add, e.name) := by
    refine exists_congr fun a => and_congr_left fun hk => ?_
    simp [named, (Prod.mk.inj hk).2]
  unfold journalInsert
  by_cases hn : e.name = n
  · subst hn
    simp only [if_true, hmem]
    split_ifs
    · exact named_eraseKey ..
    · rw [← named_eraseKey]
      simp [named]
  · rw [if_neg hn]
    split_ifs
    · rw [named_eraseKey, eraseKey_named_of_ne hn]
    · have happ : named (eraseKey l e.key ++ [e]) n = named (eraseKey l e.key) n := by simp [named, hn]
      rw [happ, named_eraseKey, eraseKey_named_of_ne hn]

/-! ## Replaying entries on a directory -/

def applyEntry (D : Set Name) (e : JournalEntry) : Set Name :=
  match e.oper with
  | .add => insert e.name D
  | .del => D \ {e.name}

def replay (D : Set Name) (l : List JournalEntry) : Set Name := l.foldl applyEntry D

/-- A name is added when it is absent and deleted when it is present. -/
def Applicable (D : Set Name) (e : JournalEntry) : Prop := e.name ∈ D ↔ e.oper = .del

def ValidFrom (D : Set Name) : List JournalEntry → Prop
  | [] => True
  | e :: l => Applicable D e ∧ ValidFrom (applyEntry D e) l

theorem mem_applyEntry {D : Set Name} {e : JournalEntry} {n : Name} :
    n ∈ applyEntry D e ↔ if e.name = n then e.oper = .add else n ∈ D := by
  unfold applyEntry
  cases e.oper with
  | add | del =>
    split_ifs with hn
    · simp [hn]
    · simp [Ne.symm hn]

theorem validFrom_append {D : Set Name} {l l' : List JournalEntry} :
    ValidFrom D (l ++ l') ↔ ValidFrom D l ∧ ValidFrom (replay D l) l' := by
  induction l generalizing D with
  | nil => simp [ValidFrom, replay]
  | cons e l ih => rw [cons_append, ValidFrom, ValidFrom, ih, and_assoc]; rfl

/-! ## The journal and the history -/

def lastAdd (l : List JournalEntry) (n : Name) : Option JournalEntry := (l.filter (·.key = (.add, n))).getLast?

section Values
variable {β : Type} {val : JournalEntry → β}

/-- An entry is applied to the names of a directory, where an added name gets a value from its entry. -/
def applyValue (val : JournalEntry → β) (F : Name → Option β) (e : JournalEntry) : Name → Option β :=
  Function.update F e.name (match e.oper with
    | .add => some (val e)
    | .del => none)

/-- The entries of a name that had the value `o₀` at the last synchronisation and has a value or none now. -/
inductive Entries (val : JournalEntry → β) (o₀ : Option β) (n : Name) : Option β → List JournalEntry → Prop
  | untouched : Entries val o₀ n o₀ []
  | added (a : JournalEntry) : o₀ = none → a.key = (.add, n) → Entries val o₀ n (some (val a)) [a]
  | deleted (d : JournalEntry) : d.key = (.del, n) → Entries val o₀ n none [d]
  | readded (d a : JournalEntry) : d.key = (.del, n) → a.key = (.add, n) → Entries val o₀ n (some (val a)) [d, a]

variable {o₀ : Option β} {n : Name} {l : List JournalEntry} {e : JournalEntry}

theorem Entries.add (h : Entries val o₀ n none l) (he : e.key = (.add, n)) :
    Entries val o₀ n (some (val e)) (journalInsert l e) := by
  have hoper := (Prod.mk.inj he).1
  have hins : journalInsert l e = eraseKey l e.key ++ [e] := by simp [journalInsert, hoper]
  rw [hins]
  cases h with
  | untouched => exact .added e rfl he
  | deleted d hd =>
    have hkeep : eraseKey [d] e.key = [d] := by simp [eraseKey, hd, he]
    rw [hkeep]
    exact .readded d e hd he

theorem Entries.del {v : β} (h : Entries val o₀ n (some v) l) (he : e.key = (.del, n)) :
    Entries val o₀ n none (journalInsert l e) := by
  obtain ⟨hoper, hname⟩ := Prod.mk.inj he
  unfold journalInsert
  rw [hoper, hname]
  cases h with
  | untouched =>
    simp only [not_mem_nil, false_and, exists_false, and_false, if_false]
    exact .deleted e he
  | added a h0 ha =>
    -- the two entries annihilate each other
    have herase : eraseKey [a] (.add, n) = [] := by simp [eraseKey, ha]
    rw [if_pos ⟨rfl, a, by simp, ha⟩, herase, ← h0]
    exact .untouched
  | readded d a hd ha =>
    have herase : eraseKey [d, a] (.add, n) = [d] := by simp [eraseKey, ha, hd]
    rw [if_pos ⟨rfl, a, by simp, ha⟩, herase]
    exact .deleted d hd

theorem Entries.value_of_add {o : Option β} (h : Entries val o₀ n o l) (he : e ∈ l) (hadd : e.oper = .add) :
    o = some (val e) := by
  cases h with
  | untouched => cases he
  | added a _ _ => rw [mem_singleton.mp he]
  | deleted d hd =>
    rw [mem_singleton.mp he, (Prod.mk.inj hd).1] at hadd
    cases hadd
  | readded d a hd _ =>
    rcases mem_cons.mp he with rfl | he
    · rw [(Prod.mk.inj hd).1] at hadd
      cases hadd
    · rw [mem_singleton.mp he]

theorem applyValue_eq (F : Name → Option β) (e : JournalEntry) :
    applyValue val F e n = if e.name = n then (if e.oper = .add then some (val e) else none) else F n := by
  unfold applyValue
  by_cases hn : e.name = n
  · subst hn
    rw [Function.update_self, if_pos rfl]
    cases e.oper with
    | add | del => rfl
  · rw [Function.update_of_ne (Ne.symm hn), if_neg hn]

/-- What a replay does to a name depends on the entries of the name. -/
theorem foldl_applyValue_named (F F' : Name → Option β) (hF : F n = F' n) (l : List JournalEntry) :
    l.foldl (applyValue val) F n = (named l n).foldl (applyValue val) F' n := by
  induction l generalizing F F' with
  | nil => exact hF
  | cons e l ih =>
    by_cases hn : e.name = n
    · have hcons : named (e :: l) n = e :: named l n := by simp [named, hn]
      rw [hcons, foldl_cons, foldl_cons]
      apply ih
      rw [applyValue_eq, applyValue_eq, if_pos hn, if_pos hn]
    · have hcons : named (e :: l) n = named l n := by simp [named, hn]
      rw [hcons, foldl_cons]
      apply ih
      rw [applyValue_eq, if_neg hn, hF]

theorem Entries.replay {F : Name → Option β} {o : Option β} (h : Entries val (F n) n o (named l n)) :
    l.foldl (applyValue val) F n = o := by
  rw [foldl_applyValue_named F F rfl]
  generalize named l n = l' at h
  cases h with
  | untouched => rfl
  | deleted a ha | added a _ ha | readded _ a _ ha =>
    obtain ⟨hoper, hname⟩ := Prod.mk.inj ha
    simp [applyValue_eq, hoper, hname]

/-- The names that have a value are those in the directory. -/
def Tracks (D : Set Name) (F : Name → Option β) : Prop := ∀ n, n ∈ D ↔ (F n).isSome

theorem Tracks.replay {D : Set Name} {F : Name → Option β} (h : Tracks D F) (val : JournalEntry → β) (l : List JournalEntry) :
    Tracks (replay D l) (l.foldl (applyValue val) F) := by
  induction l generalizing D F with
  | nil => exact h
  | cons e l ih =>
    refine ih fun n => ?_
    rw [mem_applyEntry, applyValue_eq]
    split_ifs <;> simp_all [h n]

/-- For every name the journal has the entries that its history calls for. -/
theorem entries_of_history {D : Set Name} {F : Name → Option β} (h : Tracks D F) (val : JournalEntry → β)
    {ops : List JournalEntry} (hv : ValidFrom D ops) (n : Name) :
    Entries val (F n) n (ops.foldl (applyValue val) F n) (named (ops.foldl journalInsert []) n) := by
  induction ops using reverseRecOn with
  | nil => exact .untouched
  | append_singleton ops e ih =>
    obtain ⟨hv, happ, -⟩ := validFrom_append.mp hv
    have h' := ih hv
    rw [foldl_append, foldl_append, foldl_cons, foldl_nil, foldl_cons, foldl_nil,
      named_journalInsert, applyValue_eq]
    by_cases hn : e.name = n
    · rw [if_pos hn, if_pos hn]
      subst hn
      have hmem := (h.replay val ops e.name).symm.trans happ
      cases hoper : e.oper with
      | add =>
        rw [hoper, Option.isSome_iff_ne_none, iff_false_right (by simp), not_not] at hmem
        rw [hmem] at h'
        exact h'.add (by rw [JournalEntry.key, hoper])
      | del =>
        obtain ⟨v, hv⟩ := Option.isSome_iff_exists.mp (hmem.mpr hoper)
        rw [hv] at h'
        exact h'.del (by rw [JournalEntry.key, hoper])
    · rw [if_neg hn, if_neg hn]
      exact h'

end Values

theorem lastAdd_append (l : List JournalEntry) (e : JournalEntry) (n : Name) :
    lastAdd (l ++ [e]) n = if e.key = (.add, n) then some e else lastAdd l n := by
  unfold lastAdd
  rw [filter_append]
  split_ifs with he
  · simp [he]
  · simp [he]

theorem lastAdd_of_value {F : Name → Option (Option JournalEntry)} {n : Name} {e : JournalEntry}
    (hF : F n ≠ some (some e)) (ops : List JournalEntry) (h : ops.foldl (applyValue some) F n = some (some e)) :
    lastAdd ops n = some e := by
  induction ops using reverseRecOn with
  | nil => exact absurd h hF
  | append_singleton ops x ih =>
    rw [foldl_append, foldl_cons, foldl_nil, applyValue_eq] at h
    rw [lastAdd_append]
    split_ifs at h with hn hoper
    · rw [if_pos (by rw [JournalEntry.key, hoper, hn]), Option.some.inj h]
    · have hkey : x.key ≠ (.add, n) := fun he => hn (Prod.mk.inj he).2
      rw [if_neg hkey]
      exact ih h

theorem compact_foldl (ops : List JournalEntry) : Compact (ops.foldl journalInsert []) := by
  induction ops using reverseRecOn with
  | nil => exact Pairwise.nil
  | append_singleton ops e ih =>
    rw [foldl_append]
    exact compact_journalInsert ih e

/-! ## The journal in memory -/

namespace Journal

/-- A sequence of insertions with the addresses the pool hands out. -/
def insertAll (j : Journal) (ops : List (ℕ × JournalEntry)) : Journal := ops.foldl (fun j op => j.insert op.1 op.2) j

def FreshAll (j : Journal) : List (ℕ × JournalEntry) → Prop
  | [] => True
  | op :: ops => j.chain.node op.1 = none ∧ (j.insert op.1 op.2).FreshAll ops

theorem Holds.insertAll {j : Journal} {l : List (ℕ × JournalEntry)} (h : j.Holds l) (ops : List (ℕ × JournalEntry))
    (hf : j.FreshAll ops) :
    ∃ l', (j.insertAll ops).Holds l' ∧ l'.map Prod.snd = (ops.map Prod.snd).foldl journalInsert (l.map Prod.snd) := by
  induction ops generalizing j l with
  | nil => exact ⟨l, h, rfl⟩
  | cons op ops ih =>
    obtain ⟨l1, h1, hl1⟩ := h.insert hf.1 op.2
    obtain ⟨l', h', hl'⟩ := ih h1 hf.2
    refine ⟨l', h', ?_⟩
    rw [hl', hl1]
    rfl

end Journal

/-- Replaying the journal of a valid history gives the directory that the history gives. The journal has at
most one deletion and one addition of a name, the deletion first; an addition is the last one of its
name; chain and hash table hold the same entries. -/
theorem journal_replays_history (D₀ : Set Name) (ops : List (ℕ × JournalEntry))
    (hf : Journal.create.FreshAll ops) (hv : ValidFrom D₀ (ops.map Prod.snd)) :
    ∃ l, (Journal.create.insertAll ops).Holds l ∧
      replay D₀ (l.map Prod.snd) = replay D₀ (ops.map Prod.snd) ∧ Compact (l.map Prod.snd) ∧
      ∀ e ∈ l.map Prod.snd, e.oper = .add → lastAdd (ops.map Prod.snd) e.name = some e := by
  obtain ⟨l, h, hl⟩ := Journal.holds_create.insertAll ops hf
  rw [map_nil] at hl
  classical
  -- the names of `D₀` have no entry
  let F : Name → Option (Option JournalEntry) := fun n => if n ∈ D₀ then some none else none
  have htrack : Tracks D₀ F := fun n => by
    by_cases hn : n ∈ D₀ <;> simp [F, hn]
  have hnames := entries_of_history htrack some hv
  refine ⟨l, h, ?_, ?_, fun e he hadd => ?_⟩
  · ext n
    rw [htrack.replay some, htrack.replay some, hl, (hnames n).replay]
  · rw [hl]
    exact compact_foldl _
  · refine lastAdd_of_value (F := F) ?_ _ ((hnames e.name).value_of_add ?_ hadd)
    · by_cases hn : e.name ∈ D₀ <;> simp [F, hn]
    · rw [hl] at he
      simpa [named] using he

/-- The file `a` is replaced twice; the second time it gets the inode 2. -/
def replacedTwice : List (ℕ × JournalEntry) :=
  [(0, ⟨.del, [97], (1, 0, 1), ⟨2, 1, 1, 5, 1⟩, 3⟩), (1, ⟨.add, [97], (1, 1, 1), ⟨0, 0, 0, 0, 0⟩, 0⟩),
    (2, ⟨.del, [97], (1, 1, 1), ⟨0, 0, 0, 0, 0⟩, 0⟩), (1, ⟨.add, [97], (1, 2, 1), ⟨0, 0, 0, 0, 0⟩, 0⟩)]

theorem journal_replays_replacedTwice :
    ∃ l, (Journal.create.insertAll replacedTwice).Holds l ∧
      replay {[97]} (l.map Prod.snd) = replay {[97]} (replacedTwice.map Prod.snd) ∧ Compact (l.map Prod.snd) ∧
      ∀ e ∈ l.map Prod.snd, e.oper = .add → lastAdd (replacedTwice.map Prod.snd) e.name = some e := by
  refine journal_replays_history {[97]} replacedTwice ⟨rfl, rfl, rfl, rfl, trivial⟩ ?_
  simp [replacedTwice, ValidFrom, Applicable, applyEntry]

end ZFS
