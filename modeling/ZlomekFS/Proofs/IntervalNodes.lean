import ZlomekFS.Spec.IntervalNodes

/-! Insertions and deletions keep the nodes in order and change the offsets as they should. -/

namespace ZFS
open Spans List

/-- The nodes after an insertion, where `node` absorbs the later ones it reaches. -/
structure InsertedParts (l : List Span) (start stop : ℕ) (lo : List Span) (node : Span) (hi : List Span) : Prop where
  loSub : lo.Sublist l
  hiSub : hi.Sublist l
  le : node.start ≤ node.stop
  before : ∀ a ∈ lo, a.start < node.start ∧ a.stop ≤ node.start
  after : ∀ b ∈ hi, node.start < b.start
  gap : Separated l → ∀ a ∈ lo, a.stop < node.start
  covers : ∀ x, Covers lo x ∨ node.Has x ∨ Covers hi x ↔ Covers l x ∨ start ≤ x ∧ x < stop

variable {l : List Span} {start stop : ℕ}

/-- Either a node holds the interval already, or a node absorbs what it reaches. -/
theorem insertNodes_parts (h : Parted l) (hle : start ≤ stop) :
    (insertNodes l start stop = l ∧ ∃ node ∈ l, node.start = start ∧ stop ≤ node.stop) ∨
      ∃ lo node hi, insertNodes l start stop = lo ++ absorb node hi ∧ InsertedParts l start stop lo node hi := by
  have hgt : ∀ b ∈ after l start, start < b.start := fun b hb => (mem_after.mp hb).2
  have hlt : ∀ a ∈ before l start, a.start < start := fun a ha => (mem_before.mp ha).2
  have hsubl : (before l start).Sublist l := filter_sublist
  have hsubh : (after l start).Sublist l := filter_sublist
  have hsplit := fun x => h.ordered.covers_split start x
  unfold insertNodes
  cases hat : spanAt l start with
  | some node =>
    obtain ⟨hnode, hstart⟩ := spanAt_some hat
    simp only [hat, Option.some.injEq, exists_eq_left'] at hsplit
    simp only
    split_ifs with hbig
    · exact Or.inl ⟨rfl, node, hnode, hstart, hbig⟩
    · refine Or.inr ⟨_, _, _, rfl, hsubl, hsubh, hle, fun a ha => ⟨hlt a ha, ?_⟩, hgt, fun hsep a ha => ?_, fun x => ?_⟩
      · exact (h.stop_le (hsubl.subset ha) hnode (by rw [hstart]; exact hlt a ha)).trans_eq hstart
      · exact (hsep.before_lt ha hnode hstart.ge).trans_eq hstart
      · rw [hsplit x]
        simp only [Span.Has]
        have : node.start ≤ x ∧ x < node.stop → start ≤ x ∧ x < stop := by omega
        grind
  | none =>
    simp only [hat, reduceCtorEq, false_and, exists_false, false_or] at hsplit
    simp only
    right
    split
    · rename_i prev hprev
      obtain ⟨hlast, hreach⟩ := Option.filter_eq_some_iff.mp hprev
      simp only [decide_eq_true_eq] at hreach
      obtain ⟨heq, hmem, hpk, hlow⟩ := h.before_last hlast
      refine ⟨_, _, _, rfl, (dropLast_sublist _).trans hsubl, hsubh, ?_, hlow, fun b hb => ?_, ?_, fun x => ?_⟩
      · simp only
        omega
      · exact hpk.trans (hgt b hb)
      · exact fun hsep a ha => hsep.before_last hlast a ha
      · rw [hsplit x]
        conv_rhs => rw [heq]
        rw [covers_append, covers_cons]
        simp only [Span.Has, not_covers_nil, or_false]
        have : (prev.start ≤ x ∧ x < max prev.stop stop) ↔
            (prev.start ≤ x ∧ x < prev.stop) ∨ start ≤ x ∧ x < stop := by omega
        grind
    · rename_i hnot
      have hfar : ∀ a ∈ before l start, a.stop < start := by
        intro a ha
        obtain ⟨prev, hp, hle'⟩ := h.before_stop_le ha
        by_contra hcon
        exact hnot prev (by simp [hp]; omega)
      have hbefore : ∀ a ∈ before l start, a.start < start ∧ a.stop ≤ start := fun a ha =>
        ⟨hlt a ha, (hfar a ha).le⟩
      split
      · rename_i next hnext
        obtain ⟨hhead, hreach⟩ := Option.filter_eq_some_iff.mp hnext
        simp only [decide_eq_true_eq] at hreach
        have hcons : after l start = next :: (after l start).tail := (cons_head?_tail hhead).symm
        have hnextmem : next ∈ after l start := by rw [hcons]; simp
        have hsn := hgt next hnextmem
        have hnle := h.le next (hsubh.subset hnextmem)
        refine ⟨_, _, _, rfl, hsubl, (tail_sublist _).trans hsubh, ?_, hbefore, fun b hb => ?_, fun _ => hfar,
          fun x => ?_⟩
        · simp only
          omega
        · exact hgt b (mem_of_mem_tail hb)
        · rw [hsplit x]
          conv_rhs => rw [hcons, covers_cons]
          simp only [Span.Has]
          have : (start ≤ x ∧ x < max next.stop stop) ↔
              (next.start ≤ x ∧ x < next.stop) ∨ start ≤ x ∧ x < stop := by omega
          grind
      · refine ⟨_, _, _, rfl, hsubl, hsubh, hle, hbefore, hgt, fun _ => hfar, fun x => ?_⟩
        rw [hsplit x]
        simp only [Span.Has]
        grind

theorem covers_insertNodes (h : Parted l) (hle : start ≤ stop) (x : ℕ) :
    Covers (insertNodes l start stop) x ↔ Covers l x ∨ start ≤ x ∧ x < stop := by
  rcases insertNodes_parts h hle with ⟨heq, node, hnode, hs, he⟩ | ⟨lo, node, hi, heq, hparts⟩
  · rw [heq]
    refine ⟨Or.inl, fun hx => hx.elim id fun hx => ⟨node, hnode, ?_⟩⟩
    simp only [Span.Has]
    omega
  · rw [heq, covers_append, covers_absorb hparts.after, hparts.covers x]

theorem insertNodes_parted (h : Parted l) (hle : start ≤ stop) : Parted (insertNodes l start stop) := by
  rcases insertNodes_parts h hle with ⟨heq, -⟩ | ⟨lo, node, hi, heq, hparts⟩
  · rwa [heq]
  · rw [heq]
    refine (h.sublist hparts.loSub).append ((h.sublist hparts.hiSub).absorb hparts.le hparts.after) fun a ha b hb => ?_
    have := start_le_absorb hparts.after b hb
    have := hparts.before a ha
    omega

theorem insertNodes_spec (h : Separated l) (hle : start ≤ stop) :
    Separated (insertNodes l start stop) ∧
      ∀ x, Covers (insertNodes l start stop) x ↔ Covers l x ∨ start ≤ x ∧ x < stop := by
  refine ⟨?_, covers_insertNodes h.parted hle⟩
  rcases insertNodes_parts h.parted hle with ⟨heq, -⟩ | ⟨lo, node, hi, heq, hparts⟩
  · rwa [heq]
  · rw [heq]
    refine separated_append.mpr ⟨h.sublist hparts.loSub, (h.sublist hparts.hiSub).absorb hparts.le hparts.after, ?_⟩
    exact fun a ha b hb => (hparts.gap h a ha).trans_le (start_le_absorb hparts.after b hb)

/-- The nodes after a deletion: what is kept below `start`, then what is kept from `stop` on. -/
structure DeletedParts (l : List Span) (start stop : ℕ) (lo mid : List Span) : Prop where
  loParted : Parted lo
  midParted : Parted mid
  before : ∀ a ∈ lo, a.start < start ∧ a.stop ≤ start
  after : ∀ b ∈ mid, stop ≤ b.start
  low : ∀ x < start, Covers l x ↔ Covers lo x
  high : ∀ x, stop ≤ x → (Covers l x ↔ Covers mid x)
  separated : Separated l → Separated lo ∧ Separated mid

theorem DeletedParts.cut {l lo hi : List Span} (h : Parted l) (hhi : hi.Sublist l) (hlo : Parted lo)
    (hbefore : ∀ a ∈ lo, a.start < start ∧ a.stop ≤ start) (hlow : ∀ x < start, Covers l x ↔ Covers lo x)
    (hhigh : ∀ x, stop ≤ x → (Covers l x ↔ Covers hi x)) (hsep : Separated l → Separated lo) :
    DeletedParts l start stop lo (cut stop hi) := by
  obtain ⟨happ, hge, hcov⟩ := (h.sublist hhi).cut stop
  refine ⟨hlo, happ, hbefore, hge, hlow, fun x hx => ?_, fun hl => ⟨hsep hl, ?_⟩⟩
  · rw [hcov x hx, hhigh x hx]
  · exact (hl.sublist hhi).cut stop

theorem DeletedParts.shorten {l lo hi : List Span} {node : Span} (h : Parted l)
    (hhi : (node :: hi).Sublist l) (hbig : stop < node.stop) (hlo : Parted lo)
    (hbefore : ∀ a ∈ lo, a.start < start ∧ a.stop ≤ start) (hlow : ∀ x < start, Covers l x ↔ Covers lo x)
    (hhigh : ∀ x, stop ≤ x → (Covers l x ↔ x < node.stop ∨ Covers hi x)) (hsep : Separated l → Separated lo) :
    DeletedParts l start stop lo (⟨stop, node.stop⟩ :: hi) := by
  have hnext : ∀ b ∈ hi, node.stop ≤ b.start := (pairwise_cons.mp (h.sublist hhi).gap).1
  have hsub : hi.Sublist l := (sublist_cons_self ..).trans hhi
  refine ⟨hlo, (h.sublist hsub).cons hbig.le fun b hb => ⟨hbig.trans_le (hnext b hb), hnext b hb⟩, hbefore,
    fun b hb => ?_, hlow, fun x hx => ?_, fun hl => ⟨hsep hl, ?_⟩⟩
  · rcases mem_cons.mp hb with rfl | hb
    · exact le_rfl
    · exact hbig.le.trans (hnext b hb)
  · rw [hhigh x hx, covers_cons]
    simp only [Span.Has, hx, true_and]
  · obtain ⟨-, hgap, htail⟩ := separated_cons.mp (hl.sublist hhi)
    exact separated_cons.mpr ⟨hbig.le, hgap, htail⟩

theorem deleteNodes_parts (h : Parted l) (hle : start ≤ stop) :
    ∃ lo mid, deleteNodes l start stop = lo ++ mid ∧ DeletedParts l start stop lo mid := by
  have hgt : ∀ b ∈ after l start, start < b.start := fun b hb => (mem_after.mp hb).2
  have hlt : ∀ a ∈ before l start, a.start < start := fun a ha => (mem_before.mp ha).2
  have hsubl : (before l start).Sublist l := filter_sublist
  have hsubh : (after l start).Sublist l := filter_sublist
  have hsplit := h.ordered.split start
  have hcov := fun x => h.ordered.covers_split start x
  have hafter : ∀ x < start, ¬ Covers (after l start) x := fun x hx hc => by
    have := Separated.covers_ge (fun b hb => (hgt b hb).le) hc
    omega
  have hout : ∀ {lo : List Span}, (∀ a ∈ lo, a.stop ≤ start) → ∀ x, stop ≤ x → ¬ Covers lo x := by
    rintro lo hlo x hx ⟨a, ha, hax⟩
    have := hlo a ha
    have := hax.2
    omega
  unfold deleteNodes
  cases hat : spanAt l start with
  | some node =>
    obtain ⟨hnode, rfl⟩ := spanAt_some hat
    rw [hat, Option.toList_some, singleton_append] at hsplit
    simp only [hat, Option.some.injEq, exists_eq_left'] at hcov
    have hbefore : ∀ a ∈ before l node.start, a.start < node.start ∧ a.stop ≤ node.start := fun a ha =>
      ⟨hlt a ha, h.stop_le (hsubl.subset ha) hnode (hlt a ha)⟩
    have hbeforec := hout fun a ha => (hbefore a ha).2
    have hlow : ∀ x < node.start, Covers l x ↔ Covers (before l node.start) x := fun x hx => by
      have := hafter x hx
      rw [hcov x]
      simp only [Span.Has]
      grind
    simp only
    split_ifs with hbig
    · refine ⟨_, _, rfl, DeletedParts.shorten h ?_ hbig (h.sublist hsubl) hbefore hlow (fun x hx => ?_) ?_⟩
      · conv_rhs => rw [hsplit]
        exact sublist_append_right ..
      · have := hbeforec x hx
        rw [hcov x]
        simp only [Span.Has]
        grind
      · exact fun hl => hl.sublist hsubl
    · refine ⟨_, _, rfl, DeletedParts.cut h hsubh (h.sublist hsubl) hbefore hlow (fun x hx => ?_) ?_⟩
      · have := hbeforec x hx
        rw [hcov x]
        simp only [Span.Has]
        grind
      · exact fun hl => hl.sublist hsubl
  | none =>
    rw [hat, Option.toList_none, nil_append] at hsplit
    simp only [hat, reduceCtorEq, false_and, exists_false, false_or] at hcov
    simp only
    split
    · rename_i prev hprev
      obtain ⟨hlast, hreach⟩ := Option.filter_eq_some_iff.mp hprev
      simp only [decide_eq_true_eq] at hreach
      obtain ⟨heq, hmem, hpk, hlow⟩ := h.before_last hlast
      have hsubd : (before l start).dropLast.Sublist l := (dropLast_sublist _).trans hsubl
      have hdropc := hout fun a ha => (hlow a ha).2.trans hpk.le
      have hbeforec : ∀ x, Covers (before l start) x ↔
          Covers (before l start).dropLast x ∨ prev.start ≤ x ∧ x < prev.stop := fun x => by
        conv_lhs => rw [heq]
        simp [covers_append, Span.Has]
      -- the shortened predecessor joins the untouched part below it
      have hshort : Parted ((before l start).dropLast ++ [⟨prev.start, start⟩]) := by
        refine (h.sublist hsubd).append (Parted.nil.cons hpk.le (by simp)) fun a ha b hb => ?_
        rw [mem_singleton.mp hb]
        exact hlow a ha
      have hshortle : ∀ a ∈ (before l start).dropLast ++ [⟨prev.start, start⟩], a.start < start ∧ a.stop ≤ start := by
        intro a ha
        rw [mem_append, mem_singleton] at ha
        rcases ha with ha | rfl
        · have := hlow a ha
          omega
        · exact ⟨hpk, le_rfl⟩
      have hshortsep : Separated l → Separated ((before l start).dropLast ++ [⟨prev.start, start⟩]) := by
        refine fun hl => separated_append.mpr ⟨hl.sublist hsubd, separated_cons.mpr ⟨hpk.le, by simp, Separated.nil⟩,
          fun a ha b hb => ?_⟩
        rw [mem_singleton.mp hb]
        exact hl.before_last hlast a ha
      have hlowc : ∀ x < start,
          Covers l x ↔ Covers ((before l start).dropLast ++ [⟨prev.start, start⟩]) x := fun x hx => by
        have := hafter x hx
        rw [hcov x, hbeforec x, covers_append, covers_cons]
        simp only [Span.Has, not_covers_nil]
        grind
      split_ifs with hbig
      · refine ⟨_, ⟨stop, prev.stop⟩ :: after l start, by simp, DeletedParts.shorten h ?_ hbig hshort hshortle hlowc
          (fun x hx => ?_) hshortsep⟩
        · conv_rhs => rw [hsplit, heq]
          simp
        · have := hdropc x hx
          rw [hcov x, hbeforec x]
          grind
      · refine ⟨_, cut stop (after l start), by simp, DeletedParts.cut h hsubh hshort hshortle hlowc (fun x hx => ?_)
          hshortsep⟩
        have := hdropc x hx
        rw [hcov x, hbeforec x]
        grind
    · rename_i hnot
      have hfar : ∀ a ∈ before l start, a.start < start ∧ a.stop ≤ start := by
        intro a ha
        obtain ⟨prev, hp, hle'⟩ := h.before_stop_le ha
        refine ⟨hlt a ha, ?_⟩
        by_contra hcon
        exact hnot prev (by simp [hp]; omega)
      have hbeforec := hout fun a ha => (hfar a ha).2
      refine ⟨_, _, rfl, DeletedParts.cut h hsubh (h.sublist hsubl) hfar (fun x hx => ?_) (fun x hx => ?_) ?_⟩
      · have := hafter x hx
        rw [hcov x]
        grind
      · have := hbeforec x hx
        rw [hcov x]
        grind
      · exact fun hl => hl.sublist hsubl

theorem deleteNodes_parted (h : Parted l) (hle : start ≤ stop) : Parted (deleteNodes l start stop) := by
  obtain ⟨lo, mid, heq, hparts⟩ := deleteNodes_parts h hle
  rw [heq]
  refine hparts.loParted.append hparts.midParted fun a ha b hb => ?_
  have := hparts.before a ha
  have := hparts.after b hb
  omega

theorem covers_deleteNodes (h : Parted l) (hle : start ≤ stop) (x : ℕ) :
    Covers (deleteNodes l start stop) x ↔ Covers l x ∧ ¬ (start ≤ x ∧ x < stop) := by
  obtain ⟨lo, mid, heq, hparts⟩ := deleteNodes_parts h hle
  have hlow : Covers lo x → x < start := by
    rintro ⟨a, ha, hx⟩
    exact hx.2.trans_le (hparts.before a ha).2
  have hhigh : Covers mid x → stop ≤ x := Separated.covers_ge hparts.after
  rw [heq, covers_append]
  rcases lt_or_ge x start with hx | hx
  · have : ¬ Covers mid x := fun hm => by have := hhigh hm; omega
    rw [hparts.low x hx]
    grind
  · have : ¬ Covers lo x := fun hl => by have := hlow hl; omega
    rcases lt_or_ge x stop with hx' | hx'
    · have : ¬ Covers mid x := fun hm => by have := hhigh hm; omega
      grind
    · rw [hparts.high x hx']
      grind

theorem deleteNodes_spec (h : Separated l) (hlt : start < stop) :
    Separated (deleteNodes l start stop) ∧
      ∀ x, Covers (deleteNodes l start stop) x ↔ Covers l x ∧ ¬ (start ≤ x ∧ x < stop) := by
  refine ⟨?_, covers_deleteNodes h.parted hlt.le⟩
  obtain ⟨lo, mid, heq, hparts⟩ := deleteNodes_parts h.parted hlt.le
  obtain ⟨hlo, hmid⟩ := hparts.separated h
  rw [heq]
  refine separated_append.mpr ⟨hlo, hmid, fun a ha b hb => ?_⟩
  have := hparts.before a ha
  have := hparts.after b hb
  omega

theorem deleteNodes_lt (start stop : ℕ) (hl : ∀ s ∈ l, s.start < s.stop) :
    ∀ s ∈ deleteNodes l start stop, s.start < s.stop := by
  have hlo : ∀ s ∈ before l start, s.start < s.stop := fun s hs => hl s (mem_before.mp hs).1
  have hhi : ∀ s ∈ after l start, s.start < s.stop := fun s hs => hl s (mem_after.mp hs).1
  have hdrop : ∀ s ∈ (before l start).dropLast, s.start < s.stop := fun s hs =>
    hlo s (dropLast_subset _ hs)
  have hcut := cut_lt stop hhi
  have hglue : ∀ lo mid : List Span, (∀ s ∈ lo, s.start < s.stop) → (∀ s ∈ mid, s.start < s.stop) →
      ∀ s ∈ lo ++ mid, s.start < s.stop := fun lo mid h h' s hs =>
    (mem_append.mp hs).elim (h s) (h' s)
  unfold deleteNodes
  simp only
  split
  · split_ifs with hbig
    · exact hglue _ _ hlo (forall_mem_cons.mpr ⟨hbig, hhi⟩)
    · exact hglue _ _ hlo hcut
  · split
    · rename_i prev hprev
      rw [Option.filter_eq_some_iff] at hprev
      have hpk : prev.start < start := (mem_before.mp (mem_of_getLast? hprev.1)).2
      split_ifs with hbig
      · exact hglue _ _ hdrop (forall_mem_cons.mpr ⟨hpk, forall_mem_cons.mpr ⟨hbig, hhi⟩⟩)
      · exact hglue _ _ hdrop (forall_mem_cons.mpr ⟨hpk, hcut⟩)
    · exact hglue _ _ hlo hcut

end ZFS
