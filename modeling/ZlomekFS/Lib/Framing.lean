import Mathlib.Tactic

/-! Streams of frames: the first `k` elements of a frame tell its length. There is at most one way to cut a
stream into frames. -/

namespace Framing

variable {α : Type} (k : ℕ) (len : List α → ℕ)

def IsFrame (p : List α) : Prop := k ≤ p.length ∧ len (p.take k) = p.length

def Incomplete (l : List α) : Prop := l.length < k ∨ l.length < len (l.take k)

/-- The stream consists of the frames and of the beginning of another one. -/
structure Decomposes (stream : List α) (ps : List (List α)) (l : List α) : Prop where
  stream : stream = ps.flatten ++ l
  frames : ∀ p ∈ ps, IsFrame k len p
  incomplete : Incomplete k len l

variable {k len}

theorem take_frame_append {p l : List α} (hp : IsFrame k len p) : (p ++ l).take k = p.take k :=
  List.take_append_of_le_length hp.1

theorem not_incomplete_append {p l : List α} (hp : IsFrame k len p) : ¬ Incomplete k len (p ++ l) := by
  have hk := hp.1
  have hlen := hp.2
  rw [Incomplete, take_frame_append hp, List.length_append]
  omega

theorem frame_unique {p p' l l' : List α} (hp : IsFrame k len p) (hp' : IsFrame k len p') (h : p ++ l = p' ++ l') :
    p = p' ∧ l = l' := by
  have hlen : p.length = p'.length := by
    rw [← hp.2, ← hp'.2, ← take_frame_append hp (l := l), h, take_frame_append hp']
  exact List.append_inj h hlen

theorem Decomposes.unique {ps : List (List α)} :
    ∀ {stream : List α} {ps' : List (List α)} {l l' : List α}, Decomposes k len stream ps l →
      Decomposes k len stream ps' l' → ps = ps' ∧ l = l' := by
  induction ps with
  | nil =>
    intro stream ps' l l' h h'
    have heq := h.stream.symm.trans h'.stream
    cases ps' with
    | nil => exact ⟨rfl, heq⟩
    | cons p' ps' =>
      have hl : l = p' ++ (ps'.flatten ++ l') := by simpa using heq
      exact absurd (hl ▸ h.incomplete) (not_incomplete_append (h'.frames p' List.mem_cons_self))
  | cons p ps ih =>
    intro stream ps' l l' h h'
    have heq := h.stream.symm.trans h'.stream
    cases ps' with
    | nil =>
      have hl : l' = p ++ (ps.flatten ++ l) := by simpa using heq.symm
      exact absurd (hl ▸ h'.incomplete) (not_incomplete_append (h.frames p List.mem_cons_self))
    | cons p' ps' =>
      have hcut : p ++ (ps.flatten ++ l) = p' ++ (ps'.flatten ++ l') := by simpa using heq
      obtain ⟨rfl, htail⟩ := frame_unique (h.frames p List.mem_cons_self) (h'.frames p' List.mem_cons_self) hcut
      obtain ⟨rfl, rfl⟩ := ih ⟨rfl, fun q hq => h.frames q (List.mem_cons_of_mem p hq), h.incomplete⟩
        ⟨htail, fun q hq => h'.frames q (List.mem_cons_of_mem p hq), h'.incomplete⟩
      exact ⟨rfl, rfl⟩

theorem eq_append_of_frames (hk : 0 < k) {qs ps : List (List α)} {l : List α} (hqs : ∀ q ∈ qs, IsFrame k len q)
    (hps : ∀ p ∈ ps, IsFrame k len p) (h : qs.flatten ++ l = ps.flatten) : ∃ ps', ps = qs ++ ps' ∧ l = ps'.flatten := by
  induction qs generalizing ps with
  | nil => exact ⟨ps, rfl, h⟩
  | cons q qs ih =>
    rw [List.forall_mem_cons] at hqs
    cases ps with
    | nil =>
      have hlen := hqs.1.1
      simp_all
    | cons p ps =>
      rw [List.forall_mem_cons] at hps
      simp only [List.flatten_cons, List.append_assoc] at h
      obtain ⟨rfl, htail⟩ := frame_unique hqs.1 hps.1 h
      obtain ⟨ps', rfl, hl⟩ := ih hqs.2 hps.2 htail
      exact ⟨ps', rfl, hl⟩

end Framing
