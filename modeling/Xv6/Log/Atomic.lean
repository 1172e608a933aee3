import Xv6.Log.Refine

/-!
# Operations and crashes

One process runs file-system operations, each between `begin_op` and `end_op`,
and calls `sync` between them. A crash should leave, after recovery, what some
number of complete operations made of the disk. It does as long as no `bread`
inside an operation flushes; one that does commits half an operation.

* `atomic_iff_no_flush`: all states of a run are atomic exactly when no step of
  the run flushes inside an operation;
* `large_operation_not_atomic`: the 99th block that an operation reads commits
  what it has logged so far.

`Hist` keeps beside the system the block map after each complete operation; that
is what a recovered disk is compared with. Crashes fall between any two sector
writes, also of the commit that is running. Several processes are the subject of
`Log.Mutex` and `Log.Concurrent`.
-/

namespace Xv6.Log

open Xv6.Lib Xv6.Lib.Prog

/-! ## The system -/

/-- The kernel with its history: the block map after each complete operation, the
first being the one found at boot; and the disk before the last step together
with the sector writes of that step. -/
structure Hist where
  sys : Sys
  images : List (Nat → Block)
  before : Nat → Block
  fresh : List (Nat × Block)

/-- Operations are not nested, access home blocks and release what they hold
before they end; `sync` is called between them. -/
def InOrder (s : St) : Act → Prop
  | .beginOp => s.outstanding = 0
  | .endOp => s.outstanding = 1 ∧ s.num_held = 0
  | .sync => s.outstanding = 0
  | .bread b => s.outstanding = 1 ∧ s.log.Home b
  | .write _ _ => s.outstanding = 1
  | .brelse _ => s.outstanding = 1

instance (a : LogArea) (b : Nat) : Decidable (a.Home b) :=
  inferInstanceAs (Decidable (b < FSSIZE ∧ ¬ (a.start ≤ b ∧ b < a.start + a.size)))

instance (s : St) : (act : Act) → Decidable (InOrder s act)
  | .beginOp => inferInstanceAs (Decidable (s.outstanding = 0))
  | .endOp => inferInstanceAs (Decidable (s.outstanding = 1 ∧ s.num_held = 0))
  | .sync => inferInstanceAs (Decidable (s.outstanding = 0))
  | .bread b => inferInstanceAs (Decidable (s.outstanding = 1 ∧ s.log.Home b))
  | .write _ _ => inferInstanceAs (Decidable (s.outstanding = 1))
  | .brelse _ => inferInstanceAs (Decidable (s.outstanding = 1))

/-- `end_op` completes an operation. -/
def complete (images : List (Nat → Block)) (map : Nat → Block) : Act → List (Nat → Block)
  | .endOp => images ++ [map]
  | _ => images

def Hist.next (s : Hist) (act : Act) : Option Hist :=
  if InOrder s.sys.k act then
    (Log.next s.sys act).map fun t =>
      { sys := t
        images := complete s.images t.map act
        before := s.sys.k.disk
        fresh := t.k.writes.drop s.sys.k.writes.length }
  else none

/-- After the boot has recovered a disk with an empty log. -/
def Hist.Init (s : Hist) : Prop :=
  ∃ a d, headN (d a.start) = 0 ∧ recoverFromLog.run (binit a d) = .ok ((), s.sys.k) ∧
    s.sys.map = s.sys.k.disk ∧ s.sys.maxHeld = 0 ∧ s.images = [s.sys.k.disk] ∧
    s.before = s.sys.k.disk ∧ s.fresh = []

/-! ## The property -/

/-- Recovery makes `d` what some complete operations had made of the disk. -/
def Recovers (s : Hist) (d : Nat → Block) : Prop :=
  ∃ r, recoverFromLog.run (binit s.sys.k.log d) = .ok ((), r) ∧
    ∃ m ∈ s.images, ∀ b, s.sys.k.log.Home b → r.disk b = m b

/-- Commits have only run between operations, and whatever a crash during the
last step would have left recovers. -/
structure Hist.Atomic (s : Hist) : Prop where
  commits : ∀ n ∈ s.sys.k.commits, n = 0
  crash : ∀ d, Crash s.before s.fresh d → Recovers s d

/-- The step does not flush from inside an operation. -/
def NoFlush (s : Hist) : Act → Prop
  | .bread _ => 2 < s.sys.k.num_unused_buf
  | _ => True

/-! ## The invariant -/

structure Hist.Inv (a : LogArea) (s : Hist) (H : Finset Nat) (C : Nat → Block) : Prop
    extends Log.Inv a s.sys H C where
  commits : ∀ n ∈ s.sys.k.commits, n = 0
  outstanding : s.sys.k.outstanding ≤ 1
  disk : ∃ m ∈ s.images, ∀ b, a.Home b → s.sys.k.disk b = m b
  complete : s.sys.k.outstanding = 0 → s.sys.map ∈ s.images

/-- A crash now leads to one of the images between operations. -/
theorem Hist.Inv.recovers {a : LogArea} {s : Hist} {H : Finset Nat} {C : Nat → Block}
    (h : Hist.Inv a s H C) : Recovers s s.sys.k.disk := by
  rcases h.disk with ⟨m, hm, heq⟩
  obtain ⟨r, hr, -, hagree⟩ := recover_after_cuts
    (RedoLog.ready_of_replay_nil h.store.valid h.store.replay) .refl
  have hold := hagree.trans (RedoLog.agree_image_of_replay_nil h.store.replay)
  rw [← h.store.log] at hr
  refine ⟨r, hr, m, hm, fun b hb => ?_⟩
  rw [h.store.log] at hb
  rw [hold b hb.2]
  exact heq b hb

/-- A commit that runs between operations recovers to the old image or to the map. -/
theorem Hist.Inv.recovers_commit {a : LogArea} {s : Hist} {H : Finset Nat} {C : Nat → Block}
    (h : Hist.Inv a s H C) (h0 : s.sys.k.outstanding = 0) {d : Nat → Block}
    (hc : Crash s.sys.k.disk (commitWrites a s.sys.k.disk C s.sys.k.lh) d) : Recovers s d := by
  rcases hc with ⟨vs, hvs, rfl⟩
  obtain ⟨r, hr, -, hblocks, hrest, -⟩ := commitWrites_cut h.store.replay h.store.valid
    h.store.nodup h.store.short h.store.lh_home hvs .refl
  rw [← h.store.log] at hr
  rcases hblocks with hold | hnew
  · rcases h.disk with ⟨m, hm, heq⟩
    refine ⟨r, hr, m, hm, fun b hb => ?_⟩
    rw [h.store.log] at hb
    rw [← heq b hb]
    by_cases hbl : b ∈ s.sys.k.lh
    · exact hold b hbl
    · exact hrest b hb.2 hbl
  · refine ⟨r, hr, s.sys.map, h.complete h0, fun b hb => ?_⟩
    rw [h.store.log] at hb
    rw [← h.map b hb.2]
    by_cases hbl : b ∈ s.sys.k.lh
    · exact hnew b hbl
    · rw [hrest b hb.2 hbl]
      exact (h.store.cached.clean b fun hbl' => hbl (List.mem_toFinset.1 hbl')).symm

/-! ## Steps -/

/-- Operations in order are allowed. -/
theorem InOrder.allowed {s : Sys} {act : Act} (h : InOrder s.k act) : Allowed s act := by
  cases act with
  | bread b => exact h.2
  | beginOp => trivial
  | endOp => trivial
  | sync => trivial
  | write i v => trivial
  | brelse i => trivial

/-- What a step adds to the history. -/
theorem Hist.next_eq {s s' : Hist} {act : Act} (hs : s.next act = some s') :
    InOrder s.sys.k act ∧ Log.next s.sys act = some s'.sys ∧
      s'.images = complete s.images s'.sys.map act ∧
      s'.before = s.sys.k.disk ∧ s'.fresh = s'.sys.k.writes.drop s.sys.k.writes.length := by
  simp only [Hist.next, Option.ite_none_right_eq_some] at hs
  rcases hs with ⟨hord, hs⟩
  rcases Option.map_eq_some_iff.1 hs with ⟨t, ht, rfl⟩
  exact ⟨hord, ht, rfl, rfl, rfl⟩

/-- A step that writes nothing leaves nothing new to a crash. -/
theorem Hist.Inv.still {a : LogArea} {s s' : Hist} {H H' : Finset Nat} {C C' : Nat → Block}
    (h : Hist.Inv a s H C) (h' : Log.Inv a s'.sys H' C') (hst : Still s.sys.k s'.sys.k)
    (himages : s.images ⊆ s'.images) (hbefore : s'.before = s.sys.k.disk)
    (hfresh : s'.fresh = s'.sys.k.writes.drop s.sys.k.writes.length)
    (hout : s'.sys.k.outstanding ≤ 1)
    (hcomplete : s'.sys.k.outstanding = 0 → s'.sys.map ∈ s'.images) :
    s'.Atomic ∧ Hist.Inv a s' H' C' := by
  have hinv : Hist.Inv a s' H' C' := by
    refine ⟨h', ?_, hout, ?_, hcomplete⟩
    · rw [hst.commits]
      exact h.commits
    · rcases h.disk with ⟨m, hm, heq⟩
      rw [hst.disk]
      exact ⟨m, himages hm, heq⟩
  refine ⟨⟨hinv.commits, ?_⟩, hinv⟩
  intro d hd
  rw [hst.writes, List.drop_length] at hfresh
  rw [hbefore, hfresh] at hd
  rcases hd with ⟨vs, hvs, rfl⟩
  rw [List.prefix_nil.1 hvs, applyWrites_nil, ← hst.disk]
  exact hinv.recovers

/-- A step keeps operations atomic exactly when it does not flush from inside one. -/
theorem Hist.next_atomic {a : LogArea} {s s' : Hist} {H : Finset Nat} {C : Nat → Block}
    (h : Hist.Inv a s H C) {act : Act} (hs : s.next act = some s') :
    (s'.Atomic ↔ NoFlush s act) ∧ (s'.Atomic → ∃ H' C', Hist.Inv a s' H' C') := by
  rcases Hist.next_eq hs with ⟨hord, ht, himages, hbefore, hfresh⟩
  rcases next_inv h.toInv hord.allowed ht with ⟨H', C', h', heff⟩
  -- the steps that write nothing
  have hstill : ∀ (_ : NoFlush s act) (_ : Still s.sys.k s'.sys.k) (_ : s.images ⊆ s'.images)
      (_ : s'.sys.k.outstanding ≤ 1) (_ : s'.sys.k.outstanding = 0 → s'.sys.map ∈ s'.images),
      (s'.Atomic ↔ NoFlush s act) ∧ (s'.Atomic → ∃ H' C', Hist.Inv a s' H' C') := by
    intro hnf hst hsub hout hcomplete
    rcases h.still h' hst hsub hbefore hfresh hout hcomplete with ⟨hatomic, hinv⟩
    exact ⟨⟨fun _ => hnf, fun _ => hatomic⟩, fun _ => ⟨H', C', hinv⟩⟩
  cases act with
  | beginOp =>
      rcases heff with ⟨hout, -, hst⟩
      have h0 : s.sys.k.outstanding = 0 := hord
      exact hstill trivial hst (himages ▸ List.Subset.refl _) (by omega) fun hz => by omega
  | endOp =>
      rcases heff with ⟨hout, -, hst⟩
      have h1 : s.sys.k.outstanding = 1 := hord.1
      refine hstill trivial hst ?_ (by omega) fun _ => ?_
      · rw [himages]
        exact List.subset_append_left _ _
      · rw [himages]
        exact List.mem_append_right _ (List.mem_singleton.2 rfl)
  | sync =>
      rcases heff with ⟨hout, hmap, hlh, hcommits, hwrites⟩
      have h0 : s.sys.k.outstanding = 0 := hord
      have himages' : s'.images = s.images := himages
      rw [hwrites, List.drop_left] at hfresh
      have hlog : s'.sys.k.log = s.sys.k.log := h'.store.log.trans h.store.log.symm
      have hinv : Hist.Inv a s' H' C' := by
        refine ⟨h', ?_, by omega, ?_, fun _ => ?_⟩
        · rw [hcommits, h0]
          intro n hn
          rcases List.mem_append.1 hn with hn | hn
          · exact h.commits n hn
          · exact List.mem_singleton.1 hn
        · refine ⟨s'.sys.map, ?_, fun b hb => ?_⟩
          · rw [himages', hmap]
            exact h.complete h0
          · have hc := h'.store.cached
            rw [hlh, List.toFinset_nil] at hc
            rw [← hc.clean b (Finset.notMem_empty b)]
            exact h'.map b hb.2
        · rw [himages', hmap]
          exact h.complete h0
      have hatomic : s'.Atomic := by
        refine ⟨hinv.commits, fun d hd => ?_⟩
        rw [hbefore, hfresh] at hd
        have hrec := h.recovers_commit h0 hd
        unfold Recovers at hrec ⊢
        rwa [hlog, himages']
      exact ⟨⟨fun _ => trivial, fun _ => hatomic⟩, fun _ => ⟨H', C', hinv⟩⟩
  | bread b =>
      rcases heff with ⟨hout, hmap, hcase⟩
      have h1 : s.sys.k.outstanding = 1 := hord.1
      rcases hcase with ⟨hmany, hst⟩ | ⟨hfew, hcommits⟩
      · exact hstill hmany hst (himages ▸ List.Subset.refl _) (by omega) fun hz => by omega
      · -- a commit has run inside the operation
        have hno : ¬ s'.Atomic := by
          intro hat
          have hone := hat.commits 1 (by rw [hcommits, h1]; simp)
          cases hone
        exact ⟨⟨fun hat => absurd hat hno, fun hnf => absurd hnf (Nat.not_lt.2 hfew)⟩,
          fun hat => absurd hat hno⟩
  | write i v =>
      rcases heff with ⟨hout, hst⟩
      have h1 : s.sys.k.outstanding = 1 := hord
      exact hstill trivial hst (himages ▸ List.Subset.refl _) (by omega) fun hz => by omega
  | brelse i =>
      rcases heff with ⟨hout, hmap, hst⟩
      have h1 : s.sys.k.outstanding = 1 := hord
      exact hstill trivial hst (himages ▸ List.Subset.refl _) (by omega) fun hz => by omega

/-- The invariant at boot. -/
theorem Hist.init_inv {s : Hist} (h : s.Init) : ∃ a, Hist.Inv a s ∅ s.sys.k.disk := by
  rcases h with ⟨a, d, hd, hr, hmap, hm, himages, -, -⟩
  rcases replay_of_headN_zero hd with ⟨hreplay, hvalid⟩
  have hready := RedoLog.ready_of_replay_nil hvalid hreplay
  rcases recover_store hready hr with ⟨hstore, hout, -, hcommits⟩
  rcases Log.init_inv ⟨a, d, hready, hr, hmap, hm⟩ with ⟨a', hinv⟩
  refine ⟨a', hinv, ?_, ?_, ?_, fun _ => ?_⟩
  · simp [hcommits]
  · rw [hout]
    exact Nat.zero_le 1
  · exact ⟨s.sys.k.disk, by simp [himages], fun _ _ => rfl⟩
  · simp [himages, hmap]

/-- All states of a run are atomic exactly when no step of it flushes from inside
an operation. -/
theorem atomic_iff_no_flush {s : Hist} {tr : List (Act × Hist)} (h0 : s.Init)
    (htr : IsTrace Hist.next s tr) : (∀ p ∈ tr, p.2.Atomic) ↔ StepsOk NoFlush s tr := by
  have hiff : ∀ s act s', (∃ a H C, Hist.Inv a s H C) → Hist.next s act = some s' →
      (s'.Atomic ↔ NoFlush s act) := by
    rintro s act s' ⟨a, H, C, h⟩ hs
    exact (Hist.next_atomic h hs).1
  have hkeep : ∀ s act s', (∃ a H C, Hist.Inv a s H C) → Hist.next s act = some s' →
      s'.Atomic → ∃ a H C, Hist.Inv a s' H C := by
    rintro s act s' ⟨a, H, C, h⟩ hs hat
    rcases (Hist.next_atomic h hs).2 hat with ⟨H', C', h'⟩
    exact ⟨a, H', C', h'⟩
  rcases Hist.init_inv h0 with ⟨a, h⟩
  exact trace_good_iff hiff hkeep ⟨a, _, _, h⟩ htr

/-- A step of the log and the cache is one of the history. -/
theorem Hist.next_of_next {s : Hist} {t : Sys} (act : Act) (hord : InOrder s.sys.k act)
    (ht : Log.next s.sys act = some t) :
    ∃ s', Hist.next s act = some s' ∧ s'.sys = t := by
  unfold Hist.next
  rw [if_pos hord, ht]
  exact ⟨_, rfl, rfl⟩

/-- There is a boot to start from. -/
theorem Hist.boots : ∃ s : Hist, s.Init ∧ Store mkfsLog s.sys.k ∅ s.sys.k.disk ∧
    s.sys.k.outstanding = 0 ∧ s.sys.k.lh = [] := by
  rcases Log.boots with ⟨k, hk⟩
  rcases recover_store boots_ready hk with ⟨hstore, hout, hlh, -⟩
  exact ⟨⟨⟨k, k.disk, 0⟩, [k.disk], k.disk, []⟩,
    ⟨mkfsLog, _, rfl, hk, rfl, rfl, rfl, rfl, rfl⟩, hstore, hout, hlh⟩

/-- An operation that logs a block, and a `sync` after it: no step flushes. -/
theorem atomic_iff_no_flush_sync : ∃ (s : Hist) (i : Bidx) (tr : List (Act × Hist)), s.Init ∧
    IsTrace Hist.next s tr ∧
    tr.map Prod.fst = [.beginOp, .bread 500, .write i fun _ => 1, .brelse i, .endOp, .sync] ∧
    ∀ p ∈ tr, p.2.Atomic := by
  rcases boots_and_writes fun _ => 1 with ⟨k, i, t1, t2, t3, t4, t5, t6, hk, h⟩
  have hinit : Hist.Init ⟨⟨k, k.disk, 0⟩, [k.disk], k.disk, []⟩ :=
    ⟨mkfsLog, _, rfl, hk, rfl, rfl, rfl, rfl, rfl⟩
  obtain ⟨s1, hs1, rfl⟩ := Hist.next_of_next (s := ⟨⟨k, k.disk, 0⟩, [k.disk], k.disk, []⟩)
    .beginOp h.closed h.begins
  rcases Hist.next_of_next (.bread 500) ⟨h.opened, h.home⟩ h.access.reads with ⟨s2, hs2, rfl⟩
  rcases Hist.next_of_next (.write i _) h.access.open1 h.access.writes with ⟨s3, hs3, rfl⟩
  rcases Hist.next_of_next (.brelse i) h.access.open2 h.access.releases with ⟨s4, hs4, rfl⟩
  rcases Hist.next_of_next .endOp ⟨h.access.open3, h.held⟩ h.ends with ⟨s5, hs5, rfl⟩
  rcases Hist.next_of_next .sync h.closes h.syncs with ⟨s6, hs6, rfl⟩
  have htr : IsTrace Hist.next _ [(.beginOp, s1), (.bread 500, s2), (.write i _, s3),
      (.brelse i, s4), (.endOp, s5), (.sync, s6)] := ⟨hs1, hs2, hs3, hs4, hs5, hs6, trivial⟩
  have hok : StepsOk NoFlush ⟨⟨k, k.disk, 0⟩, [k.disk], k.disk, []⟩ [(.beginOp, s1),
      (.bread 500, s2), (.write i fun _ => 1, s3), (.brelse i, s4), (.endOp, s5), (.sync, s6)] :=
    ⟨trivial, h.access.unused, trivial, trivial, trivial, trivial, trivial⟩
  exact ⟨_, i, _, hinit, htr, rfl, (atomic_iff_no_flush hinit htr).2 hok⟩

/-! ## An operation that is too large -/

/-- One access: read a block that is not listed yet, log it, release it. -/
theorem access {s : Hist} {C : Nat → Block} (hr : Reachable Hist.Init Hist.next s)
    (h : Store mkfsLog s.sys.k ∅ C) (hout : s.sys.k.outstanding = 1) {b : Nat}
    (hb : mkfsLog.Home b) (hbl : b ∉ s.sys.k.lh) (hroom : s.sys.k.lh.length < 98) :
    ∃ s' C', Reachable Hist.Init Hist.next s' ∧ Store mkfsLog s'.sys.k ∅ C' ∧
      s'.sys.k.outstanding = 1 ∧ s'.sys.k.lh = s.sys.k.lh ++ [b] := by
  rcases exists_access h hout hb hbl hroom fun _ => 1 with ⟨i, t1, t2, t3, hacc⟩
  rcases Hist.next_of_next (.bread b) ⟨hout, h.log ▸ hb⟩ hacc.reads with ⟨s1, hs1, rfl⟩
  rcases Hist.next_of_next (.write i _) hacc.open1 hacc.writes with ⟨s2, hs2, rfl⟩
  rcases Hist.next_of_next (.brelse i) hacc.open2 hacc.releases with ⟨s3, hs3, rfl⟩
  rcases hacc.store with ⟨C', h'⟩
  exact ⟨s3, C', ((hr.step trivial hs1).step trivial hs2).step trivial hs3, h', hacc.open3,
    hacc.lh⟩

/-- Inside one operation, up to 98 blocks can be logged. -/
theorem accesses (n : Nat) (hn : n ≤ 98) :
    ∃ s C, Reachable Hist.Init Hist.next s ∧ Store mkfsLog s.sys.k ∅ C ∧
      s.sys.k.outstanding = 1 ∧ s.sys.k.lh = (List.range n).map (200 + ·) := by
  have hF : FSSIZE = 2500000 := rfl
  have hL : LOGSIZE = 100 := rfl
  induction n with
  | zero =>
      rcases Hist.boots with ⟨s, hinit, h, hout, hlh⟩
      rcases (beginOp_store h).exists with ⟨_, k, hk, rfl⟩
      -- the operation begins
      obtain ⟨s1, hs1, hsys1⟩ := Hist.next_of_next (.beginOp) hout
        (Option.map_eq_some_iff.2 ⟨_, after_of_run hk, rfl⟩)
      have hr1 : Reachable Hist.Init Hist.next s1 :=
        ReachOk.step (ReachOk.init hinit) trivial hs1
      refine ⟨s1, s.sys.k.disk, hr1, ?_, ?_, ?_⟩
      · rw [hsys1]
        exact h.outstanding _
      · rw [hsys1]
        show s.sys.k.outstanding + 1 = 1
        rw [hout]
      · rw [hsys1]
        exact hlh
  | succ n ih =>
      rcases ih (by omega) with ⟨s, C, hr, h, hout, hlh⟩
      have hb : mkfsLog.Home (200 + n) := by
        refine ⟨by omega, ?_⟩
        unfold LogArea.Mem mkfsLog
        simp only
        omega
      have hbl : 200 + n ∉ s.sys.k.lh := by
        rw [hlh]
        simp
      have hlen : s.sys.k.lh.length < 98 := by
        rw [hlh, List.length_map, List.length_range]
        omega
      -- one access more: block `200 + n` is read, changed and logged
      rcases access hr h hout hb hbl hlen with ⟨s', C', hr', h', hout', hlh'⟩
      refine ⟨s', C', hr', h', hout', ?_⟩
      rw [hlh', hlh, List.range_succ, List.map_append]
      rfl

/-- The 99th block that an operation reads is committed with what the operation
has logged so far. -/
theorem large_operation_not_atomic : ¬ ∀ s, Reachable Hist.Init Hist.next s → s.Atomic := by
  intro hall
  have hN : NBUF = 100 := rfl
  -- 98 logged blocks are all pinned, so the next `bread` finds too few buffers
  rcases accesses 98 (Nat.le_refl _) with ⟨s, C, hr, h, hout, hlh⟩
  have hb : mkfsLog.Home 500 := by decide
  have hcard := h.card
  rw [Finset.empty_union, List.toFinset_card_of_nodup h.nodup, hlh, List.length_map,
    List.length_range] at hcard
  obtain ⟨i, k, hk, -, -, -, -, hcase⟩ :=
    (bread_store h (Finset.notMem_empty 500) hb (fun _ _ _ => Finset.notMem_empty _)
      (by omega)).exists
  -- its `flush` commits while the operation is still outstanding
  have hcommits : k.commits = s.sys.k.commits ++ [s.sys.k.outstanding] := by
    rcases hcase with ⟨hmany, -⟩ | ⟨-, -, hcommits, -⟩
    · omega
    · exact hcommits
  obtain ⟨s', hs', hsys'⟩ := Hist.next_of_next (.bread 500) ⟨hout, h.log ▸ hb⟩
    (Option.map_eq_some_iff.2 ⟨k, after_of_run hk, rfl⟩)
  have hone : s.sys.k.outstanding = 0 := by
    apply (hall s' (hr.step trivial hs')).commits
    rw [hsys']
    show s.sys.k.outstanding ∈ k.commits
    rw [hcommits]
    simp
  rw [hout] at hone
  cases hone

end Xv6.Log
