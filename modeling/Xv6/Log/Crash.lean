import Xv6.Log.Commit

/-!
# Crashes during a commit

Whatever point a commit is cut at, and however often the recovery after it is
cut too, a complete recovery finally leaves either all the old blocks or all the
new ones (`commit_all_or_nothing`). It leaves the new ones if the header has been
written, and the blocks that were not logged are as they were.

A sector write is atomic and writes reach the disk in the order they are issued
(`Lib.Disk`); what the disk does with a sector that is cut is not modelled. The
data blocks of the log may hold anything when the commit starts.
-/

namespace Xv6.Log

open Xv6.Lib Xv6.Lib.Prog

/-- The machine boots with the disk `d` and crashes during recovery, which leaves `d'`. -/
def RecoveryCut (a : LogArea) (d d' : Nat → Block) : Prop :=
  ∃ r, recoverFromLog.run (binit a d) = .ok ((), r) ∧ Crash d r.writes d'

/-- Any number of such boots. -/
def RecoveryCuts (a : LogArea) : (Nat → Block) → (Nat → Block) → Prop :=
  Relation.ReflTransGen (RecoveryCut a)

theorem RecoveryCut.crash {a : LogArea} {d d' : Nat → Block} (hd : (redoLog a).Ready d)
    (h : RecoveryCut a d d') : Crash d ((redoLog a).recovery d) d' := by
  rcases h with ⟨r, hr, hc⟩
  rwa [(wp.of_ok (recover_ends hd) hr).1] at hc

theorem RecoveryCuts.crashes {a : LogArea} {d d' : Nat → Block} (hd : (redoLog a).Ready d)
    (h : RecoveryCuts a d d') : (redoLog a).Crashes d d' := by
  induction h with
  | refl => exact .refl
  | tail _ hcut ih => exact .tail ih (hcut.crash (RedoLog.image_of_crashes hd ih).1)

/-- What the boot that completes recovery leaves, after any number that did not. -/
theorem recover_after_cuts {a : LogArea} {d d' : Nat → Block} (hd : (redoLog a).Ready d)
    (h : RecoveryCuts a d d') :
    ∃ r, recoverFromLog.run (binit a d') = .ok ((), r) ∧ headN (r.disk a.start) = 0 ∧
      (redoLog a).Agree r.disk ((redoLog a).image d) := by
  rcases RedoLog.image_of_crashes hd (h.crashes hd) with ⟨hready, hagree⟩
  rcases (recover_ends hready).exists with ⟨_, r, hr, -, hdisk, -, -⟩
  rcases RedoLog.recovery_all hready with ⟨hagree', -, hhead⟩
  rw [← hdisk] at hagree' hhead
  refine ⟨r, hr, ?_, hagree'.trans hagree⟩
  show headN (r.disk (redoLog a).head) = 0
  rw [hhead]
  exact headN_putHead _ (by decide)

/-- The log's copies, read back. -/
theorem installs_copies {a : LogArea} {C : Nat → Block} (bs : List Nat) :
    ∀ (d : Nat → Block) (tail : Nat),
      installs a (applyWrites d (copies a C tail bs)) tail bs = bs.map fun b => (b, C b) := by
  induction bs with
  | nil =>
      intro d tail
      rfl
  | cons b bs ih =>
      intro d tail
      rw [copies, applyWrites_cons, installs, ih, List.map_cons]
      congr 2
      rw [applyWrites_of_ne]
      · exact Function.update_self ..
      · intro w hw
        have := mem_copies bs (tail + 1) hw
        omega

/-- The image of a committed transaction: the new contents, and nothing else changed. -/
theorem image_committed {a : LogArea} {d C : Nat → Block} {lh : List Nat} {v : Block}
    (hnd : lh.Nodup) (hlen : lh.length < LOGSIZE) (hhome : ∀ b ∈ lh, a.Home b) :
    let D := (redoLog a).committed d (copies a C 0 lh) (putHead v lh)
    (∀ b ∈ lh, (redoLog a).image D b = C b) ∧
      ∀ b, ¬ a.Mem b → b ∉ lh → (redoLog a).image D b = d b := by
  intro D
  have hsize := a.size_eq
  -- the header that was written replays the copies
  have hreplay : (redoLog a).replay D = lh.map fun b => (b, C b) := by
    rw [replay_committed hlen fun b hb => (hhome b hb).1, ← installs_copies lh d 0]
    apply installs_congr
    intro i hi
    refine Function.update_of_ne ?_ _ _
    show a.start + (0 + i) + 1 ≠ a.start
    omega
  rw [RedoLog.image, hreplay]
  constructor
  -- a logged block gets its copy
  · intro b hb
    have hmem : (b, C b) ∈ lh.map fun b => (b, C b) := List.mem_map.2 ⟨b, hb, rfl⟩
    refine applyWrites_of_mem (w := (b, C b)) ?_ hmem
    rw [List.map_map]
    simpa [Function.comp_def] using hnd
  -- another block is neither written by the copies nor by the replay
  · intro b hb hbl
    have hne : b ≠ a.start := by
      rintro rfl
      exact hb (redoLog a).head_mem
    have hcopy : applyWrites d (copies a C 0 lh) b = d b := by
      apply applyWrites_of_ne
      rintro w hw rfl
      exact hb (copies_mem hlen w hw).1
    rw [applyWrites_of_ne, ← hcopy]
    · exact Function.update_of_ne hne _ _
    · intro w hw hwb
      rcases List.mem_map.1 hw with ⟨c, hc, rfl⟩
      exact hbl (hwb ▸ hc)

/-- An empty header has nothing to redo. -/
theorem replay_of_headN_zero {a : LogArea} {d : Nat → Block} (h : headN (d a.start) = 0) :
    (redoLog a).replay d = [] ∧ (redoLog a).valid (d a.start) := by
  constructor
  · show (if headN (d a.start) < LOGSIZE then installs a d 0 (headList (d a.start)) else []) = []
    rw [headList, h]
    rfl
  · show headN (d a.start) < LOGSIZE
    rw [h]
    decide

/-- The writes of a commit cut anywhere, then boots that are cut during recovery,
then one that is not. -/
theorem commitWrites_cut {a : LogArea} {d C : Nat → Block} {lh : List Nat}
    (hreplay : (redoLog a).replay d = []) (hvalid : (redoLog a).valid (d a.start))
    (hnd : lh.Nodup) (hlen : lh.length < LOGSIZE) (hhome : ∀ b ∈ lh, a.Home b)
    {vs : List (Nat × Block)} {d' : Nat → Block} (hvs : vs <+: commitWrites a d C lh)
    (hcuts : RecoveryCuts a (applyWrites d vs) d') :
    ∃ r, recoverFromLog.run (binit a d') = .ok ((), r) ∧ headN (r.disk a.start) = 0 ∧
      ((∀ b ∈ lh, r.disk b = d b) ∨ ∀ b ∈ lh, r.disk b = C b) ∧
      (∀ b, ¬ a.Mem b → b ∉ lh → r.disk b = d b) ∧
      ((∃ w ∈ vs, w.1 = a.start) → ∀ b ∈ lh, r.disk b = C b) := by
  have hnot : ∀ b, a.Home b → b ∉ (redoLog a).area := fun b hb => hb.2
  have hwsarea := copies_mem (a := a) (C := C) hlen
  rw [commitWrites] at hvs
  split at hvs
  · -- nothing was logged
    next hnil =>
    rcases List.prefix_nil.1 hvs with rfl
    obtain ⟨r, hr, hhead, hagree⟩ :=
      recover_after_cuts (RedoLog.ready_of_replay_nil hvalid hreplay) hcuts
    have hold := hagree.trans (RedoLog.agree_image_of_replay_nil hreplay)
    refine ⟨r, hr, hhead, ?_, fun b hb _ => hold b hb, ?_⟩
    · left
      simp [hnil]
    · simp [hnil]
  -- the one write that matters is that of the header
  rcases RedoLog.commit_crash hvalid hreplay hwsarea (ready_committed hlen hhome) hvs with
    ⟨hpre, hready, himage⟩ | ⟨hpre, hready, himage⟩
  · -- cut before the header was written
    rcases recover_after_cuts hready hcuts with ⟨r, hr, hhead, hagree⟩
    have hold := hagree.trans himage
    refine ⟨r, hr, hhead, Or.inl fun b hb => hold b (hnot b (hhome b hb)),
      fun b hb _ => hold b hb, ?_⟩
    rintro ⟨w, hw, heq⟩
    exact absurd heq (hwsarea w (hpre.subset hw)).2
  · -- cut after it
    rcases recover_after_cuts hready hcuts with ⟨r, hr, hhead, hagree⟩
    have hnew := hagree.trans himage
    obtain ⟨hlogged, hrest⟩ :=
      image_committed (d := d) (C := C) (v := d a.start) hnd hlen hhome
    have hall : ∀ b ∈ lh, r.disk b = C b := fun b hb =>
      (hnew b (hnot b (hhome b hb))).trans (hlogged b hb)
    exact ⟨r, hr, hhead, Or.inr hall, fun b hb hbl => (hnew b hb).trans (hrest b hb hbl),
      fun _ => hall⟩

/-- `commit`, which both its callers enter with `is_flush` set, started with an
empty log on the disk and with the logged blocks pinned in the cache, one buffer
at least being free, and cut after any of its sector writes; then boots that are
cut during recovery; then one that is not. -/
theorem commit_all_or_nothing {s : St} {H : Finset Nat} {C : Nat → Block}
    (h : Cached s H s.lh.toFinset C) (hfl : s.is_flush = true)
    (hempty : headN (s.disk s.log.start) = 0) (hnd : s.lh.Nodup) (hlen : s.lh.length < LOGSIZE)
    (hlh : ∀ b ∈ s.lh, b ∉ H ∧ s.log.Home b) (hH : ∀ b ∈ H, ¬ s.log.Mem b)
    (hroom : H.card + s.lh.length < NBUF) :
    ∃ s' ws, commit.run s = .ok ((), s') ∧ s'.writes = s.writes ++ ws ∧
      ∀ vs d, vs <+: ws → RecoveryCuts s.log (applyWrites s.disk vs) d →
        ∃ r, recoverFromLog.run (binit s.log d) = .ok ((), r) ∧
          headN (r.disk s.log.start) = 0 ∧
          ((∀ b ∈ s.lh, r.disk b = s.disk b) ∨ ∀ b ∈ s.lh, r.disk b = C b) ∧
          (∀ b, ¬ s.log.Mem b → b ∉ s.lh → r.disk b = s.disk b) ∧
          ((∃ w ∈ vs, w.1 = s.log.start) → ∀ b ∈ s.lh, r.disk b = C b) := by
  have hcard : (H ∪ s.lh.toFinset).card < NBUF := by
    have h1 := Finset.card_union_le H s.lh.toFinset
    have h2 := List.toFinset_card_le s.lh
    omega
  obtain ⟨_, s', hs', -, -, hwrites, -⟩ :=
    (commit_ends h rfl hfl hnd hlen hH hlh (Or.inr hcard)).exists
  rcases replay_of_headN_zero hempty with ⟨hreplay, hvalid⟩
  exact ⟨s', _, hs', hwrites, fun vs d hvs hcuts =>
    commitWrites_cut hreplay hvalid hnd hlen (fun b hb => (hlh b hb).2) hvs hcuts⟩

/-- Buffer `i` is given the contents `v` of block `b`, which is logged. -/
def St.logged (s : St) (i : Bidx) (b : Nat) (v : Block) : St :=
  { s.setBuf i fun _ => ⟨true, true, ROOTDEV, b, false, 0, v⟩ with
    is_flush := true
    lh := s.lh ++ [b] }

/-- Logging a block that was not cached. -/
theorem Cached.logged {s : St} {D : Finset Nat} {C : Nat → Block} (h : Cached s ∅ D C) {i : Bidx}
    {b : Nat} (hi : ∀ c, ¬ Holds s i c) (hb : ∀ j, ¬ Holds s j b) (hlt : b < FSSIZE) (v : Block) :
    Cached (s.logged i b v) ∅ (insert b D) (Function.update C b v) := by
  refine h.set (i := i) (b := b) (x := ⟨true, true, ROOTDEV, b, false, 0, v⟩) rfl
    (List.Perm.refl _) ?_ ?_ ?_ rfl ?_ ?_ rfl ?_ ?_ ?_ ?_ ?_ ?_ hlt
  · exact fun j hj => absurd hj (hb j)
  · exact fun c _ hc => absurd hc (hi c)
  · simp [Buf.caches]
  · simp
  · simp
  · simp
  · simp
  · exact fun c hc => by simp [hc]
  · exact fun c hc => Function.update_of_ne hc _ _
  · exact fun _ _ => rfl
  · simp

/-- A disk of zeros below a cache in which two blocks have been given new contents. -/
def twoLogged (v w : Block) : St :=
  ((binit mkfsLog fun _ _ => 0).logged ⟨0, by decide⟩ 500 v).logged ⟨1, by decide⟩ 501 w

/-- The cache with two logged blocks. -/
theorem twoLogged_cached (v w : Block) : Cached (twoLogged v w) ∅ [500, 501].toFinset
    (Function.update (Function.update (fun _ _ => 0) 500 v) 501 w) := by
  have hno : ∀ j c, ¬ Holds (binit mkfsLog fun _ _ => 0) j c := by
    intro j c hj
    cases (caches_iff.1 hj).1
  have h1 := (binit_cached mkfsLog fun _ _ => 0).logged (i := ⟨0, by decide⟩) (b := 500)
    (hno _) (fun j => hno j 500) (by decide) v
  have hset : [500, 501].toFinset = insert 501 (insert 500 (∅ : Finset Nat)) := by
    ext c
    simp [or_comm]
  rw [hset]
  refine h1.logged (fun c hc => ?_) (fun j hj => ?_) (by decide) w
  · -- the second buffer is still empty
    cases (caches_iff.1 hc).1
  · by_cases hj0 : j = ⟨0, by decide⟩
    · subst hj0
      cases (caches_iff.1 hj).2
    · apply hno j 501
      unfold Holds St.logged St.setBuf at hj
      simp only [Function.update_of_ne hj0] at hj
      exact hj

/-- A commit of two blocks, cut anywhere, with any number of recoveries that are cut as well. -/
theorem commit_all_or_nothing_two :
    ∃ s' ws, commit.run (twoLogged (fun _ => 1) fun _ => 2) = .ok ((), s') ∧ s'.writes = ws ∧
      ∀ vs d, vs <+: ws → RecoveryCuts mkfsLog (applyWrites (fun _ _ => 0) vs) d →
        ∃ r, recoverFromLog.run (binit mkfsLog d) = .ok ((), r) ∧ headN (r.disk 2) = 0 ∧
          (((r.disk 500 = fun _ => 0) ∧ r.disk 501 = fun _ => 0) ∨
            (r.disk 500 = fun _ => 1) ∧ r.disk 501 = fun _ => 2) := by
  have hlog : ∀ b ∈ [500, 501], b ∉ (∅ : Finset Nat) ∧ mkfsLog.Home b := by
    intro b hb
    refine ⟨Finset.notMem_empty _, ?_⟩
    simp only [List.mem_cons, List.not_mem_nil, or_false] at hb
    rcases hb with rfl | rfl
    · exact ⟨by decide, by unfold LogArea.Mem mkfsLog; decide⟩
    · exact ⟨by decide, by unfold LogArea.Mem mkfsLog; decide⟩
  obtain ⟨s', ws, hs', hws, hall⟩ := commit_all_or_nothing
    (twoLogged_cached (fun _ => 1) fun _ => 2) rfl rfl (by decide) (by decide) hlog (by simp)
    (by decide)
  refine ⟨s', ws, hs', hws, fun vs d hvs hcuts => ?_⟩
  rcases hall vs d hvs hcuts with ⟨r, hr, hhead, hblocks, -⟩
  have hmem : 500 ∈ [500, 501] ∧ 501 ∈ [500, 501] := by decide
  refine ⟨r, hr, hhead, hblocks.imp (fun h => ⟨h 500 hmem.1, h 501 hmem.2⟩) fun h => ⟨?_, ?_⟩⟩
  · rw [h 500 hmem.1, Function.update_of_ne (by decide), Function.update_self]
  · rw [h 501 hmem.2, Function.update_self]

end Xv6.Log
