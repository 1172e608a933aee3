import Mathlib.Data.Set.Basic
import Mathlib.Data.List.Nodup
import Mathlib.Logic.Function.Basic
import Mathlib.Logic.Relation

/-!
# Disks and redo logs

A disk maps block addresses to contents; sector writes are atomic and reach it
in order, so a crash leaves the disk after some prefix of the writes issued.

A redo log keeps part of the disk for itself. From the contents of that part it
can read off which writes a committed transaction still owes (`replay`).
Recovery issues them and then erases the log. What matters about a disk is its
`image`: the home blocks as they are once the owed writes have been made. It
does not change while recovery runs, however often recovery is cut short
(`image_of_crashes`), and it changes during a commit at one write only, the one
of the log's header (`commit_crash`).
-/

namespace Xv6.Lib

universe u v

variable {ι : Type u} {β : Type v} [DecidableEq ι]

/-! ## Writes in order -/

/-- The disk after the writes `ws`. -/
def applyWrites (d : ι → β) : List (ι × β) → ι → β
  | [] => d
  | w :: ws => applyWrites (Function.update d w.1 w.2) ws

@[simp] theorem applyWrites_nil (d : ι → β) : applyWrites d [] = d := rfl

@[simp] theorem applyWrites_cons (d : ι → β) (w : ι × β) (ws : List (ι × β)) :
    applyWrites d (w :: ws) = applyWrites (Function.update d w.1 w.2) ws := rfl

theorem applyWrites_append (d : ι → β) (ws vs : List (ι × β)) :
    applyWrites d (ws ++ vs) = applyWrites (applyWrites d ws) vs := by
  induction ws generalizing d with
  | nil => rfl
  | cons w ws ih => exact ih _

/-- A block that no write addresses keeps its contents. -/
theorem applyWrites_of_ne {d : ι → β} {ws : List (ι × β)} {i : ι} (h : ∀ w ∈ ws, w.1 ≠ i) :
    applyWrites d ws i = d i := by
  induction ws generalizing d with
  | nil => rfl
  | cons w ws ih =>
      rw [List.forall_mem_cons] at h
      rw [applyWrites_cons, ih h.2, Function.update_of_ne (Ne.symm h.1)]

/-- After the writes a block depends on what it was before only if none of them
addresses it. -/
theorem applyWrites_congr {d d' : ι → β} {ws : List (ι × β)} {i : ι}
    (h : (∃ w ∈ ws, w.1 = i) ∨ d i = d' i) : applyWrites d ws i = applyWrites d' ws i := by
  induction ws generalizing d d' with
  | nil =>
      rcases h with ⟨w, hw, _⟩ | h
      · cases hw
      · exact h
  | cons w ws ih =>
      apply ih
      by_cases hi : w.1 = i
      · subst hi
        right
        simp
      · rcases h with ⟨v, hv, hvi⟩ | h
        · rcases List.mem_cons.1 hv with rfl | hv
          · exact absurd hvi hi
          · exact Or.inl ⟨v, hv, hvi⟩
        · right
          rw [Function.update_of_ne (Ne.symm hi), Function.update_of_ne (Ne.symm hi), h]

/-- Writes may be repeated from the start after any prefix of them. -/
theorem applyWrites_redo {d : ι → β} {vs ws : List (ι × β)} (h : vs <+: ws) (i : ι) :
    applyWrites (applyWrites d vs) ws i = applyWrites d ws i := by
  apply applyWrites_congr
  by_cases hi : ∃ w ∈ ws, w.1 = i
  · exact Or.inl hi
  · right
    apply applyWrites_of_ne
    intro w hw hwi
    exact hi ⟨w, h.subset hw, hwi⟩

/-- What a block holds after writes to different addresses, one of them to it. -/
theorem applyWrites_of_mem {d : ι → β} {ws : List (ι × β)} (hnd : (ws.map Prod.fst).Nodup)
    {w : ι × β} (hw : w ∈ ws) : applyWrites d ws w.1 = w.2 := by
  induction ws generalizing d with
  | nil => cases hw
  | cons v ws ih =>
      rw [List.map_cons, List.nodup_cons] at hnd
      rcases List.mem_cons.1 hw with rfl | hw
      · rw [applyWrites_cons, applyWrites_of_ne, Function.update_self]
        intro v hv hvi
        exact hnd.1 (hvi ▸ List.mem_map_of_mem hv)
      · exact ih hnd.2 hw

/-! ## Crashes -/

/-- What a crash may leave of the disk `d` when the writes `ws` were issued. -/
def Crash (d : ι → β) (ws : List (ι × β)) (d' : ι → β) : Prop :=
  ∃ vs, vs <+: ws ∧ d' = applyWrites d vs

theorem Crash.none (d : ι → β) (ws : List (ι × β)) : Crash d ws d :=
  ⟨[], List.nil_prefix, rfl⟩

theorem Crash.all (d : ι → β) (ws : List (ι × β)) : Crash d ws (applyWrites d ws) :=
  ⟨ws, List.prefix_rfl, rfl⟩

/-- A prefix of two lists in a row ends in the first or in the second. -/
theorem prefix_append_cases {α : Type u} {us ws vs : List α} (h : us <+: ws ++ vs) :
    us <+: ws ∨ ∃ ts, us = ws ++ ts ∧ ts <+: vs := by
  rcases List.prefix_or_prefix_of_prefix h (List.prefix_append ws vs) with hus | ⟨ts, rfl⟩
  · exact Or.inl hus
  · rw [List.prefix_append_right_inj] at h
    exact Or.inr ⟨ts, rfl, h⟩

/-- A crash during a single write leaves it undone or done. -/
theorem crash_singleton {d d' : ι → β} {w : ι × β} :
    Crash d [w] d' ↔ d' = d ∨ d' = Function.update d w.1 w.2 := by
  constructor
  · rintro ⟨us, hus, rfl⟩
    cases us with
    | nil => exact Or.inl rfl
    | cons u us =>
        rw [List.cons_prefix_cons, List.prefix_nil] at hus
        rcases hus with ⟨rfl, rfl⟩
        exact Or.inr rfl
  · rintro (rfl | rfl)
    · exact Crash.none _ _
    · exact Crash.all _ _

/-! ## Redo logs -/

/-- A redo log: the blocks it keeps for itself, the one of them that is its
header, the blocks it may be used for, the headers recovery can deal with, the
writes it owes, and what recovery makes of the header when they have been made. -/
structure RedoLog (ι : Type u) (β : Type v) [DecidableEq ι] where
  area : Set ι
  head : ι
  home : Set ι
  valid : β → Prop
  replay : (ι → β) → List (ι × β)
  erase : β → β
  head_mem : head ∈ area
  home_notMem : ∀ {i}, i ∈ home → i ∉ area
  valid_erase : ∀ {v}, valid v → valid (erase v)
  replay_congr : ∀ {d d' : ι → β}, (∀ i ∈ area, d i = d' i) → replay d = replay d'
  replay_nil : ∀ {d d' : ι → β}, d head = d' head → replay d = [] → replay d' = []
  replay_erase : ∀ d, replay (Function.update d head (erase (d head))) = []

namespace RedoLog

variable (L : RedoLog ι β)

/-- Recovery can run: the header is valid and the owed writes are to home blocks. -/
structure Ready (d : ι → β) : Prop where
  valid : L.valid (d L.head)
  home : ∀ w ∈ L.replay d, w.1 ∈ L.home

/-- The disk once the owed writes have been made. -/
def image (d : ι → β) : ι → β := applyWrites d (L.replay d)

/-- Two disks agree outside the log. -/
def Agree (d d' : ι → β) : Prop := ∀ i, i ∉ L.area → d i = d' i

/-- The writes of recovery. -/
def recovery (d : ι → β) : List (ι × β) := L.replay d ++ [(L.head, L.erase (d L.head))]

/-- The disk right after the write of a commit's header `h`, the copies `ws`
having been written before it. -/
def committed (d : ι → β) (ws : List (ι × β)) (h : β) : ι → β :=
  Function.update (applyWrites d ws) L.head h

/-- The writes of a commit: copies into the log, the header, the owed writes,
the erased header. -/
def commit (d : ι → β) (ws : List (ι × β)) (h : β) : List (ι × β) :=
  ws ++ (L.head, h) :: L.recovery (L.committed d ws h)

/-- Any number of recoveries, each cut short. -/
def Crashes : (ι → β) → (ι → β) → Prop :=
  Relation.ReflTransGen fun d d' => Crash d (L.recovery d) d'

variable {L}

theorem Agree.refl (d : ι → β) : L.Agree d d := fun _ _ => rfl

theorem Agree.trans {d d' d'' : ι → β} (h : L.Agree d d') (h' : L.Agree d' d'') :
    L.Agree d d'' := fun i hi => (h i hi).trans (h' i hi)

theorem Agree.update_head (d : ι → β) (v : β) : L.Agree (Function.update d L.head v) d := by
  intro i hi
  apply Function.update_of_ne
  rintro rfl
  exact hi L.head_mem

theorem agree_image_of_replay_nil {d : ι → β} (h : L.replay d = []) : L.Agree (L.image d) d := by
  rw [image, h]
  exact Agree.refl _

theorem ready_of_replay_nil {d : ι → β} (hv : L.valid (d L.head)) (h : L.replay d = []) :
    L.Ready d := by
  refine ⟨hv, fun w hw => ?_⟩
  rw [h] at hw
  cases hw

/-- Owed writes that have been made are still owed. -/
theorem Ready.replay_redo {d : ι → β} (h : L.Ready d) {vs : List (ι × β)}
    (hvs : vs <+: L.replay d) : L.replay (applyWrites d vs) = L.replay d := by
  apply L.replay_congr
  intro i hi
  apply applyWrites_of_ne
  rintro w hw rfl
  exact L.home_notMem (h.home w (hvs.subset hw)) hi

theorem Ready.head_redo {d : ι → β} (h : L.Ready d) {vs : List (ι × β)}
    (hvs : vs <+: L.replay d) : applyWrites d vs L.head = d L.head := by
  apply applyWrites_of_ne
  rintro w hw heq
  exact L.home_notMem (h.home w (hvs.subset hw)) (heq ▸ L.head_mem)

/-- Writing any prefix of the log to its places again leaves the disk ready. -/
theorem Ready.redo {d : ι → β} (h : L.Ready d) {vs : List (ι × β)} (hvs : vs <+: L.replay d) :
    L.Ready (applyWrites d vs) := by
  constructor
  · rw [h.head_redo hvs]
    exact h.valid
  · rw [h.replay_redo hvs]
    exact h.home

/-- A complete recovery leaves the image and an empty log. -/
theorem recovery_all {d : ι → β} (h : L.Ready d) :
    L.Agree (applyWrites d (L.recovery d)) (L.image d) ∧
      L.replay (applyWrites d (L.recovery d)) = [] ∧
      applyWrites d (L.recovery d) L.head = L.erase (d L.head) := by
  rw [recovery, applyWrites_append]
  refine ⟨Agree.update_head _ _, ?_, ?_⟩
  · have herase := L.replay_erase (applyWrites d (L.replay d))
    rw [h.head_redo List.prefix_rfl] at herase
    exact herase
  · simp

/-- A recovery cut short leaves a disk with the same image. -/
theorem recovery_crash {d d' : ι → β} (h : L.Ready d) (hc : Crash d (L.recovery d) d') :
    L.Ready d' ∧ L.Agree (L.image d') (L.image d) := by
  -- some of the owed writes have been made
  have hpre : ∀ vs, vs <+: L.replay d →
      L.Ready (applyWrites d vs) ∧ L.Agree (L.image (applyWrites d vs)) (L.image d) := by
    intro vs hvs
    refine ⟨h.redo hvs, fun i _ => ?_⟩
    rw [image, h.replay_redo hvs]
    exact applyWrites_redo hvs i
  rcases hc with ⟨vs, hvs, rfl⟩
  rcases prefix_append_cases hvs with hvs | ⟨us, rfl, hus⟩
  · exact hpre vs hvs
  rcases crash_singleton.1 ⟨us, hus, applyWrites_append d _ us⟩ with heq | heq
  · rw [heq]
    exact hpre _ List.prefix_rfl
  · rw [heq]
    rcases recovery_all h with ⟨hagree, hnil, hhead⟩
    rw [recovery, applyWrites_append] at hagree hnil hhead
    refine ⟨ready_of_replay_nil ?_ hnil, (agree_image_of_replay_nil hnil).trans hagree⟩
    have hv := L.valid_erase h.valid
    rw [← hhead] at hv
    exact hv

/-- A crash leaves a disk that is ready, with the image that it had. -/
theorem image_of_crashes {d d' : ι → β} (h : L.Ready d) (hc : L.Crashes d d') :
    L.Ready d' ∧ L.Agree (L.image d') (L.image d) := by
  induction hc with
  | refl => exact ⟨h, Agree.refl _⟩
  | tail _ hstep ih =>
      rcases recovery_crash ih.1 hstep with ⟨hready, hagree⟩
      exact ⟨hready, hagree.trans ih.2⟩

/-- A crash before the header is written leaves the old image, one after it the
image of the transaction. -/
theorem commit_crash {d : ι → β} {ws vs : List (ι × β)} {h : β} (hvalid : L.valid (d L.head))
    (hempty : L.replay d = []) (hws : ∀ w ∈ ws, w.1 ∈ L.area ∧ w.1 ≠ L.head)
    (hready : L.Ready (L.committed d ws h)) (hvs : vs <+: L.commit d ws h) :
    (vs <+: ws ∧ L.Ready (applyWrites d vs) ∧ L.Agree (L.image (applyWrites d vs)) d) ∨
    (ws ++ [(L.head, h)] <+: vs ∧ L.Ready (applyWrites d vs) ∧
      L.Agree (L.image (applyWrites d vs)) (L.image (L.committed d ws h))) := by
  -- as long as only blocks of the log other than the header have been written
  have hold : ∀ us, us <+: ws →
      L.Ready (applyWrites d us) ∧ L.Agree (L.image (applyWrites d us)) d := by
    intro us hus
    have hhead : applyWrites d us L.head = d L.head :=
      applyWrites_of_ne fun w hw => (hws w (hus.subset hw)).2
    have hnil := L.replay_nil hhead.symm hempty
    refine ⟨ready_of_replay_nil (by rwa [hhead]) hnil, ?_⟩
    refine (agree_image_of_replay_nil hnil).trans fun i hi => ?_
    apply applyWrites_of_ne
    rintro w hw rfl
    exact hi (hws w (hus.subset hw)).1
  rcases prefix_append_cases hvs with hpre | ⟨us, rfl, hus⟩
  · exact Or.inl ⟨hpre, hold vs hpre⟩
  cases us with
  | nil =>
      rw [List.append_nil]
      exact Or.inl ⟨List.prefix_rfl, hold ws List.prefix_rfl⟩
  | cons u us =>
      rw [List.cons_prefix_cons] at hus
      rcases hus with ⟨rfl, hus⟩
      rw [applyWrites_append, applyWrites_cons]
      refine Or.inr ⟨?_, recovery_crash hready ⟨us, hus, rfl⟩⟩
      rw [List.prefix_append_right_inj]
      exact ⟨us, rfl⟩

end RedoLog

end Xv6.Lib
