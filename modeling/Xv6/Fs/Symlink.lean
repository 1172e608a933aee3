import Xv6.Fs.Refs
import Xv6.Fs.Mkfs

/-!
# The text of a symbolic link

`sys_symlink` copies a path over `addrs[]` and does not look at its length. A path
that fits is what `readi` and `writei` find there, from the cache or from the disk.

* `survives_iff`: in every state, a call writes nowhere else, and what it has
  stored when it succeeds is read back as it was given, if and only if the path
  and its terminator fit into `addrs[]`, or nothing comes to be stored;
* `long_overruns`: a longer one is written over what lies behind `addrs[]`.

What lies behind it in memory is not modelled: a store there is a stop with a
reason of its own. How the stored text is looked up is the subject of `Fs.Follow`
and `Fs.Reach`.
-/

namespace Xv6.Fs

open Xv6.Lib Prog
open Mkfs (sb)

variable {s s' s1 : Kernel} {p : Fin NPROC} {ip : Entry} {old new : List UInt8} {d : Dinode}
variable {E : Stop → Prop}

/-! ## Encoding and decoding -/

/-- The inode with the path in `addrs[]`. -/
def withText (d : Dinode) (old : List UInt8) : Dinode :=
  patch (d.setSize old.length) 12 (old.length + 1) fun i => old.getD i 0

/-- `readi` and `writei` find the path in the link. -/
def Reads (d : Dinode) (old : List UInt8) : Prop :=
  d.type = T_SYMLINK ∧ ∀ s, (linkText d).run s = .ok (old, s)

theorem type_withText : (withText d old).type = d.type := by
  unfold withText
  exact (getLE_patch_disjoint _ _ (by omega)).trans (d.type_setSize _)

/-- The text that fits sets the size. -/
theorem size_withText (hfit : old.length + 1 ≤ SIZEOF_ADDRS) :
    (withText d old).size = old.length := by
  have hsize : (withText d old).size = (d.setSize old.length).size :=
    getLE_patch_disjoint _ _ (by omega)
  rw [hsize]
  apply Dinode.size_setSize
  unfold SIZEOF_ADDRS NDIRECT at hfit
  omega

/-- The bytes of the addresses begin with the text. -/
theorem take_addrBytes (hfit : old.length + 1 ≤ SIZEOF_ADDRS) :
    (addrBytes (withText d old)).take old.length = old := by
  have hlen : (addrBytes (withText d old)).length = SIZEOF_ADDRS := by
    unfold addrBytes
    rw [List.length_map, List.length_range]
    rfl
  have hfit' : old.length + 1 ≤ 52 := hfit
  apply List.ext_getElem
  · rw [List.length_take, hlen]
    omega
  intro i h1 h2
  have hget : ((addrBytes (withText d old)).take old.length)[i] = byteAt (withText d old)
    (12 + i) := by
    simp [addrBytes]
  rw [hget]
  unfold withText
  rw [byteAt_patch_of_mem _ _ (by unfold SIZEOF_DINODE; omega) (by omega)]
  simp [h2]

/-- A text without a zero byte is its own C string. -/
theorem cstr_of_nonzero (h : ∀ c ∈ old, c ≠ 0) : cstr old = old := by
  unfold cstr
  induction old with
  | nil => rfl
  | cons c old ih =>
      have hc := h c List.mem_cons_self
      have hrest := ih fun x hx => h x (List.mem_cons_of_mem _ hx)
      simpa [hc] using hrest

/-- Every path that fits is read back, up to the last byte for its zero. -/
theorem reads_withText (h0 : ∀ c ∈ old, c ≠ 0) (hfit : old.length + 1 ≤ SIZEOF_ADDRS)
    (htype : d.type = T_SYMLINK) : Reads (withText d old) old := by
  refine ⟨type_withText.trans htype, fun s => ?_⟩
  have hle : ¬ (4 * (NDIRECT + 3) < (withText d old).size ∧
      cstr (addrBytes (withText d old)) = addrBytes (withText d old)) := by
    rintro ⟨hlt, -⟩
    rw [size_withText hfit] at hlt
    unfold SIZEOF_ADDRS at hfit
    omega
  unfold linkText
  rw [if_neg hle, size_withText hfit, take_addrBytes hfit, cstr_of_nonzero h0]
  rfl

/-! ## The inode of the link -/

/-- The inode is locked and a link. -/
structure IsLink (ip : Entry) (s : Kernel) : Prop where
  locked : (s.icache ip).locked = true
  ref : 1 ≤ (s.icache ip).ref
  type : (s.icache ip).din.type = T_SYMLINK

/-- Setting the type makes a locked inode a link. -/
theorem setType_isLink (hlock : (s.icache ip).locked = true) (href : 1 ≤ (s.icache ip).ref) :
    IsLink ip (s.setInode ip fun x => { x with din := x.din.setType T_SYMLINK }) where
  locked := by rw [setInode_self]; exact hlock
  ref := by rw [setInode_self]; exact href
  type := by
    rw [setInode_self]
    exact Dinode.type_setType _ _ (by decide)

/-- A new inode and the directory it goes to. -/
structure Making (dp ip : Entry) (s : Kernel) : Prop where
  locked : (s.icache ip).locked = true
  valid : (s.icache ip).valid = true
  ref : 1 ≤ (s.icache ip).ref
  dirLocked : (s.icache dp).locked = true
  dirRef : 1 ≤ (s.icache dp).ref

/-- Changing the new inode keeps the directory locked. -/
theorem Making.setDin {dp : Entry} (h : Making dp ip s) (hne : dp ≠ ip) (f : Dinode → Dinode) :
    Making dp ip (s.setInode ip fun x => { x with din := f x.din }) := by
  refine ⟨?_, ?_, ?_, ?_, ?_⟩
  · rw [setInode_self]
    exact h.locked
  · rw [setInode_self]
    exact h.valid
  · rw [setInode_self]
    exact h.ref
  · rw [setInode_of_ne hne]
    exact h.dirLocked
  · rw [setInode_of_ne hne]
    exact h.dirRef

/-- The end of `create`: the inode is written, and linked to. -/
theorem enter_wp {dp : Entry} {name : List UInt8} {Q : Entry → Kernel → Prop} (hmk : Making dp ip s)
    (hne : dp ≠ ip) (htype : (s.icache ip).din.type = T_SYMLINK)
    (hQ : ∀ s', IsLink ip s' → Q ip s') (hdead : E .deadlock) (hE : ∀ e, Inner e → E e) :
    wp (do
      iupdate ip
      let s ← get
      if (← dirlink dp name (s.icache ip).inum) = false then halt "create: dirlink"
      iunlockput dp
      return ip : FM Entry) s Q E := by
  rw [wp_bind]
  refine wp.mono (@iupdate_works ip s) ?_ hE
  intro _ s1 ht1
  have hip1 : s1.icache ip = { s.icache ip with din := (s1.icache ip).din } := ht1.entry
  have hdp1 := ht1.others dp hne
  simp only [wp_bind, wp_get]
  refine dirlink_wp ?_ (fun _ => hdead) hE
  intro r s2 hm2
  have hlock2 : (s2.icache dp).locked = true := by
    rw [hm2.unlocked dp, hdp1]
    exact hmk.dirLocked
  have href2 : 1 ≤ (s2.icache dp).ref := by
    have h := hm2.refs dp
    have hdir := hmk.dirRef
    rw [hdp1] at h
    simp only [Pi.zero_apply] at h
    omega
  refine wp_ite (fun _ => ?_) fun _ => ?_
  · rw [wp_bind]
    exact (wp_throw ..).2 (hE _ (.panic (by decide)))
  simp only [wp_bind]
  refine iunlockput_wp hlock2 href2 ?_ hE
  intro s3 hm3
  refine (wp_pure ..).2 (hQ s3 ?_)
  -- the directory is another inode
  have hr1 : 1 ≤ (s1.icache ip).ref := by rw [hip1]; exact hmk.ref
  have hv1 : (s1.icache ip).valid = true := by rw [hip1]; exact hmk.valid
  have hsame2 : Same (s1.icache ip) (s2.icache ip) := hm2.held ip hr1
  have hr2 := hm2.refs ip
  have hr3 := hm3.refs ip
  rw [one_of_ne hne.symm] at hr3
  simp only [Pi.zero_apply] at hr2 hr3
  have hsame3 : Same (s2.icache ip) (s3.icache ip) :=
    hm3.held ip (by rw [one_of_ne hne.symm]; omega)
  refine ⟨?_, by omega, ?_⟩
  · have h := hm3.locks ip
    rw [one_of_ne hne.symm] at h
    have hl3 : lockN (s3.icache ip) = lockN (s2.icache ip) := h
    apply lockN_true.1
    rw [hl3]
    apply lockN_true.2
    rw [hm2.unlocked ip, hip1]
    exact hmk.locked
  · rw [(hsame2.trans hsame3).type hv1, ht1.type]
    exact htype

/-- `create` of a name that is not there gives a locked link. -/
theorem createNew_wp {dp : Entry} {name : List UInt8} {Q : Entry → Kernel → Prop}
    (hlock : (s.icache dp).locked = true) (href : 1 ≤ (s.icache dp).ref)
    (hQ : ∀ ip s', IsLink ip s' → Q ip s') (hdead : E .deadlock) (hE : ∀ e, Inner e → E e) :
    wp (createNew dp name T_SYMLINK 0 0) s Q E := by
  unfold createNew
  rw [wp_bind]
  refine ialloc_wp ?_ hE
  intro ip s1 hm1
  rw [wp_bind]
  refine ilock_wp ?_ (fun _ => hdead) hE
  intro hfree href1 s2 he2
  have hlock1 := (hm1.unlocked dp).trans hlock
  -- the directory is locked and the new inode was not, so they are two
  have hne : dp ≠ ip := by
    intro heq
    rw [heq, hfree] at hlock1
    cases hlock1
  have href1' : 1 ≤ (s1.icache dp).ref := by
    have h := hm1.refs dp
    simp only [Pi.zero_apply] at h
    omega
  have hmk : Making dp ip s2 := by
    refine ⟨?_, ?_, ?_, ?_, ?_⟩
    · rw [he2.self]
      rfl
    · rw [he2.self]
      rfl
    · rw [he2.self]
      exact href1
    · rw [he2.other hne]
      exact hlock1
    · rw [he2.other hne]
      exact href1'
  have hmk' := hmk.setDin hne fun d => ((d.setMajor 0).setMinor 0).setNlink 1
  have hdir : ¬ T_SYMLINK = T_DIR := by decide
  simp only [wp_bind, setDin_wp, wp_get]
  -- the type is set, or it is the link's already
  refine wp_ite (fun _ => ?_) fun htype => ?_
  · simp only [wp_bind, setDin_wp]
    have h := @enter_wp _ _ _ _ name _ (hmk'.setDin hne fun d => d.setType T_SYMLINK) hne
      (by rw [setInode_self]; exact Dinode.type_setType _ _ (by decide)) (hQ ip) hdead hE
    simpa only [wp_bind, wp_get, if_neg hdir] using h
  · have h := @enter_wp _ _ _ _ name _ hmk' hne (by simpa using htype) (hQ ip) hdead hE
    simpa only [wp_bind, wp_get, if_neg hdir] using h

/-- `sys_symlink` up to the store: it ends with a locked link, with none, or in a deadlock. -/
theorem linkInode_wp {Q : Option Entry → Kernel → Prop}
    (hsome : ∀ ip s', IsLink ip s' → Q (some ip) s')
    (hnone : ∀ s', Q none s') (hdead : E .deadlock) (hE : ∀ e, Inner e → E e) :
    wp (linkInode p old new) s Q E := by
  unfold linkInode
  rw [wp_bind]
  refine namei_wp ?_ (fun _ => hdead) hE
  intro r s1 _
  cases r with
  | none => exact (wp_pure ..).2 (hnone s1)
  | some _ =>
      dsimp only
      rw [wp_bind]
      refine namei_wp ?_ (fun _ => hdead) hE
      intro r s2 _
      cases r with
      | some _ => exact (wp_pure ..).2 (hnone s2)
      | none =>
          dsimp only
          unfold create nameiparent
          rw [wp_bind]
          refine namex_wp ?_ (fun _ => hdead) hE
          intro r s3 hm3
          cases r with
          | none => exact (wp_pure ..).2 (hnone s3)
          | some r =>
              rcases r with ⟨dp, name⟩
              simp only [wp_bind]
              refine ilock_wp ?_ (fun _ => hdead) hE
              intro _ href s4 he4
              refine dirlookup_wp ?_ hE
              intro r s5 hl5
              have hm5 := hl5.moved
              have hlock5 : (s5.icache dp).locked = true := by
                rw [hm5.unlocked dp, he4.self]
                rfl
              have href5 : 1 ≤ (s5.icache dp).ref := by
                have h := hm5.refs dp
                rw [he4.self] at h
                have hr : (loaded s3 dp).ref = (s3.icache dp).ref := rfl
                simp only [Pi.zero_apply] at h
                omega
              cases r with
              | none =>
                  dsimp only
                  rw [wp_bind]
                  refine createNew_wp hlock5 href5 ?_ hdead hE
                  intro ip s6 hlink
                  exact (wp_pure ..).2 (hsome ip s6 hlink)
              | some r =>
                  -- the directory has the name already
                  rcases r with ⟨ip, off⟩
                  simp only [wp_bind]
                  refine ilock_wp ?_ (fun _ => hdead) hE
                  intro hfree href6 s6 he6
                  have hne : dp ≠ ip := by
                    intro heq
                    rw [heq, hfree] at hlock5
                    cases hlock5
                  have hdp6 := he6.other hne
                  refine iunlockput_wp (by rw [hdp6]; exact hlock5)
                    (by rw [hdp6]; exact href5) ?_ hE
                  intro s7 hm7
                  have hlock7 : (s7.icache ip).locked = true := by
                    have h := hm7.locks ip
                    rw [one_of_ne hne.symm] at h
                    have hl : lockN (s7.icache ip) = lockN (s6.icache ip) := h
                    apply lockN_true.1
                    rw [hl]
                    apply lockN_true.2
                    rw [he6.self]
                    rfl
                  have href7 : 1 ≤ (s7.icache ip).ref := by
                    have h := hm7.refs ip
                    rw [one_of_ne hne.symm, he6.self] at h
                    have hr : (loaded s5 ip).ref = (s5.icache ip).ref := rfl
                    simp only [Pi.zero_apply] at h
                    omega
                  simp only [wp_get]
                  refine wp_ite (fun h => absurd h.1 (by decide)) fun _ => ?_
                  rw [if_pos trivial]
                  simp only [wp_bind, setDin_wp, wp_pure]
                  exact hsome ip _ (setType_isLink hlock7 href7)

/-! ## Storing the path -/

/-- The inode reads as a link to `old`, is on the disk, and reads the same when it is read
from there again. -/
structure Stored (old : List UInt8) (ip : Entry) (s : Kernel) : Prop where
  reads : Reads (s.icache ip).din old
  disk : s.disk.dinode s.sb (s.icache ip).inum = (s.icache ip).din
  reload : ∀ (t : Kernel) (jp : Entry), (t.icache jp).inum = (s.icache ip).inum →
    (t.icache jp).valid = false →
    t.disk.dinode t.sb (s.icache ip).inum = s.disk.dinode s.sb (s.icache ip).inum →
    wp (ilock jp) t (fun _ t' => Reads (t'.icache jp).din old) fun _ => True

/-- What `iupdate` wrote is what the reader will load. -/
theorem stored_of_disk (hreads : Reads (s.icache ip).din old)
    (hdisk : s.disk.dinode s.sb (s.icache ip).inum = (s.icache ip).din) : Stored old ip s := by
  refine ⟨hreads, hdisk, ?_⟩
  intro t jp hinum hvalid hsame
  refine ilock_wp ?_ (fun _ => trivial) fun _ _ => trivial
  intro _ _ t' he
  have hdin : (t'.icache jp).din = (s.icache ip).din := by
    rw [he.self]
    unfold loaded
    rw [if_neg (by rw [hvalid]; decide), hinum]
    exact hsame.trans hdisk
  rw [hdin]
  exact hreads

/-- What `sys_symlink` does with the inode it has made. -/
def storeText (ip : Entry) (old : List UInt8) : FM Bool := do
  setDin ip fun d => d.setSize old.length
  putText ip old
  iupdate ip
  iunlock ip
  return true

/-- The inode is on the disk as it is in the cache. -/
theorem iupdate_disk_wp {Q : Unit → Kernel → Prop}
    (hQ : ∀ s', s'.icache = s.icache →
      s'.disk.dinode s'.sb (s.icache ip).inum = (s.icache ip).din → Q () s')
    (hE : ∀ e, Inner e → E e) : wp (iupdate ip) s Q E := by
  unfold iupdate bread bwrite halt
  simp only [wp_bind, wp_get]
  refine wp_ite (fun _ => ?_) fun _ => (wp_throw ..).2 (hE _ (.panic (by decide)))
  rw [wp_pure, wp_modify]
  exact hQ _ rfl (Disk.dinode_put_self _)

/-- Storing a text that fits leaves it in the inode and on disk. -/
theorem storeText_wp {Q : Bool → Kernel → Prop} (h0 : ∀ c ∈ old, c ≠ 0)
    (hfit : old.length + 1 ≤ SIZEOF_ADDRS) (hlink : IsLink ip s)
    (hQ : ∀ s', Stored old ip s' → Q true s') (hE : ∀ e, Inner e → E e) :
    wp (storeText ip old) s Q E := by
  unfold storeText putText
  simp only [wp_bind, setDin_wp]
  rw [if_neg (Nat.not_lt.2 hfit)]
  simp only [setDin_wp, setInode_setInode]
  refine iupdate_disk_wp ?_ hE
  intro s1 hcache hdisk
  rw [setInode_self] at hdisk
  have hentry : s1.icache ip = { s.icache ip with din := withText (s.icache ip).din old } := by
    rw [hcache, setInode_self]
    rfl
  refine iunlock_wp ?_ ?_ ((wp_pure ..).2 (hQ _ (stored_of_disk ?_ ?_)))
  · rw [hentry]
    exact hlink.locked
  · rw [hentry]
    exact hlink.ref
  · rw [setInode_self, hentry]
    exact reads_withText h0 hfit hlink.type
  · rw [setInode_self, hentry]
    exact hdisk

/-- The path is what the link is read as, and nothing else is written to; a path that does
not fit is refused. -/
def Survives (p : Fin NPROC) (old new : List UInt8) (s : Kernel) : Prop :=
  wp (sys_symlink p old new) s
    (fun r s' => r = true → old.length + 1 ≤ SIZEOF_ADDRS ∧
      ∃ ip s1, (linkInode p old new).run s = .ok (some ip, s1) ∧ Stored old ip s')
    fun e => e ≠ .overrun

/-- The path survives when it fits, or when nothing comes to be stored. -/
theorem survives_iff (p : Fin NPROC) (old new : List UInt8) (s : Kernel) (h0 : ∀ c ∈ old, c ≠ 0) :
    Survives p old new s ↔ old.length + 1 ≤ SIZEOF_ADDRS ∨
      ∀ ip s1, (linkInode p old new).run s ≠ .ok (some ip, s1) := by
  -- where the link is made it is locked and referenced
  have hlink : wp (linkInode p old new) s (fun r s1 => (∀ ip, r = some ip → IsLink ip s1) ∧
      (linkInode p old new).run s = .ok (r, s1)) fun e => e ≠ .overrun := by
    refine wp.mono (wp.inter (linkInode_wp (Q := fun r s1 => ∀ ip, r = some ip → IsLink ip s1)
      ?_ (fun _ _ => by simp) (by simp) fun _ he => he.2.2) (wp_run fun _ _ hrun => hrun))
      (fun _ _ hQ => hQ) fun _ he => he.1
    intro ip s' hip jp heq
    cases heq
    exact hip
  constructor
  · -- a path that does not fit goes beyond the array
    intro hsurv
    by_contra hnot
    rcases not_or.1 hnot with ⟨hlong, hmade⟩
    simp only [not_forall, not_not] at hmade
    rcases hmade with ⟨ip, s1, hrun⟩
    have hstop : wp (sys_symlink p old new) s (fun _ _ => False) fun e => e = .overrun := by
      unfold sys_symlink
      rw [wp_bind]
      refine wp_of_ok hrun ?_
      unfold putText
      simp only [wp_bind, setDin_wp]
      rw [if_pos (Nat.not_le.1 hlong)]
      simp only [wp_bind, wp_throw]
    have hfalse : wp (sys_symlink p old new) s (fun _ _ => False) fun _ => False :=
      wp.mono (hstop.inter hsurv) (fun _ _ hQ => hQ.1) fun _ he => he.2 he.1
    rcases Ends.exists hfalse with ⟨_, _, _, hf⟩
    exact hf
  -- a path that fits is stored; or the call fails before the store
  · intro hor
    unfold Survives sys_symlink
    rw [wp_bind]
    refine wp.mono hlink ?_ fun _ he => he
    rintro r s1 ⟨hip, hrun⟩
    cases r with
    | none => exact (wp_pure ..).2 (by simp)
    | some ip =>
        rcases hor with hfit | hnone
        · refine storeText_wp h0 hfit (hip ip rfl) ?_ fun _ he => he.2.2
          intro s' hst _
          exact ⟨hfit, ip, s1, hrun, hst⟩
        · exact absurd hrun (hnone ip s1)

/-- A root directory with the console `/c`, and nothing in the cache. -/
def rooted : Kernel where
  disk := fun b =>
    if b = IBLOCK ROOTINO sb then
      putDinode (putDinode zeroes 1
          ((((Dinode.zero.setType T_DIR).setNlink 1).setSize SIZEOF_DIRENT).setAddr 0 800))
        2 (((Dinode.zero.setType T_DEV).setNlink 1).setMajor CONSOLE)
    else if b = 800 then patch zeroes 0 SIZEOF_DIRENT fun i => (dirent 2 [99]).getD i 0
    else zeroes
  sb := sb
  icache := fun _ => ⟨0, 0, false, false, Dinode.zero⟩
  ftable := fun _ => ⟨.FD_NONE, 0, false, false, none, 0⟩
  task := fun _ => ⟨none, fun _ => none⟩

theorem survives_iff_rooted :
    Survives 0 [SLASH] [SLASH, 108] rooted ↔ [SLASH].length + 1 ≤ SIZEOF_ADDRS ∨
      ∀ ip s1, (linkInode 0 [SLASH] [SLASH, 108]).run rooted ≠ .ok (some ip, s1) :=
  survives_iff 0 [SLASH] [SLASH, 108] rooted (by simp [SLASH])

/-- Another name of `/`, with 52 bytes. -/
theorem long_overruns : ¬ Survives 0 (List.replicate SIZEOF_ADDRS SLASH) [SLASH, 108] rooted := by
  have hrun : (sys_symlink 0 (List.replicate SIZEOF_ADDRS SLASH) [SLASH, 108]).run rooted =
      .error .overrun := eq_of_stopped (by decide +kernel)
  intro h
  exact wp.of_error h hrun rfl

end Xv6.Fs
