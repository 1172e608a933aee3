import Xv6.Fs.Content
import Xv6.Fs.Refs
import Xv6.Lib.Slots

/-!
# Directories

A directory is a table of slots of sixteen bytes. `dirlookup`, `dirlink` and
`sys_unlink` scan it each with a loop of its own, and names are compared and
copied up to `DIRSIZ` bytes, with or without a terminator. The code is modelled
down to `strncmp` and `strncpy`; what it makes of the bytes is a finite map.

* `dir_is_map`: every sequence of calls returns what it returns on a table with
  one slot for each name (`Lib.Slots`), and afterwards the directory answers as
  the table does, unless a call comes to an entry for the directory itself;
* `dirlink_dot`: such a call takes the lock of the directory twice.

The loops are compared with the table first (the scans), then single calls, then
runs. That a lookup returns an inode of the cache, with a reference, is part of
each call. The directory may run out of blocks or of its size; those stops are
named in `Exhausted`.
-/

namespace Xv6.Fs

open Xv6.Lib Prog
open Mkfs (sb nmeta)

namespace Dir

/-! ## Names

A string is the list of the bytes from a pointer on; behind the last one comes the
terminator. -/

def strncmp : Nat → List UInt8 → List UInt8 → Int
  | 0, _, _ => 0
  | n + 1, p, q =>
      if p.headD 0 ≠ 0 ∧ p.headD 0 = q.headD 0 then strncmp n p.tail q.tail
      else (p.headD 0).toNat - (q.headD 0).toNat

/-- The bytes that `strncpy` writes. -/
def strncpy : Nat → List UInt8 → List UInt8
  | 0, _ => []
  | n + 1, t => t.headD 0 :: if t.headD 0 = 0 then List.replicate n 0 else strncpy n t.tail

def namecmp (s t : List UInt8) : Int := strncmp DIRSIZ s t

/-- What is compared of a name. -/
def key (name : List UInt8) : List UInt8 := cstr (name.take DIRSIZ)

/-- A bounded C string, one character at a time. -/
theorem cstr_take_succ (n : Nat) (p : List UInt8) : cstr (p.take (n + 1)) =
    if p.headD 0 = 0 then [] else p.headD 0 :: cstr (p.tail.take n) := by
  unfold cstr
  cases p with
  | nil => rfl
  | cons a p =>
      rw [List.take_succ_cons, List.takeWhile_cons]
      by_cases ha : a = 0
      · simp [ha]
      · simp [ha]

/-- `strncmp` is zero for names that agree as bounded C strings. By induction on the bound. -/
theorem strncmp_eq_zero (n : Nat) (p q : List UInt8) :
    strncmp n p q = 0 ↔ cstr (p.take n) = cstr (q.take n) := by
  induction n generalizing p q with
  | zero => simp [strncmp]
  | succ n ih =>
      unfold strncmp
      rw [cstr_take_succ, cstr_take_succ]
      by_cases heq : p.headD 0 = q.headD 0
      -- the strings go on together, until both end
      · by_cases h0 : q.headD 0 = 0
        · rw [if_neg fun h => h.1 (heq.trans h0), if_pos (heq.trans h0), if_pos h0, heq,
            Int.sub_self]
          exact ⟨fun _ => rfl, fun _ => rfl⟩
        · rw [if_pos ⟨heq ▸ h0, heq⟩, ih, if_neg (heq ▸ h0), if_neg h0, heq, List.cons.injEq]
          exact ⟨fun h => ⟨rfl, h⟩, fun h => h.2⟩
      -- they differ here, and so do the bounded strings
      · rw [if_neg fun h => heq h.2]
        have hne : (p.headD 0).toNat ≠ (q.headD 0).toNat := fun h => heq (UInt8.toNat_inj.1 h)
        constructor
        · intro h
          omega
        · intro h
          by_cases hp : p.headD 0 = 0
          · by_cases hq : q.headD 0 = 0
            · exact absurd (hp.trans hq.symm) heq
            · rw [if_pos hp, if_neg hq] at h
              cases h
          · by_cases hq : q.headD 0 = 0
            · rw [if_neg hp, if_pos hq] at h
              cases h
            · rw [if_neg hp, if_neg hq] at h
              exact absurd (List.cons.inj h).1 heq

/-- Names are equal if their first `DIRSIZ` bytes are, up to a terminator. -/
theorem namecmp_eq_zero (s t : List UInt8) : namecmp s t = 0 ↔ key s = key t :=
  strncmp_eq_zero DIRSIZ s t

/-- `strncpy` fills all its bytes. -/
theorem length_strncpy (n : Nat) (t : List UInt8) : (strncpy n t).length = n := by
  induction n generalizing t with
  | zero => rfl
  | succ n ih =>
      unfold strncpy
      rw [List.length_cons]
      split
      · rw [List.length_replicate]
      · rw [ih]

/-- `strncpy` keeps the C string. -/
theorem cstr_strncpy (n : Nat) (t : List UInt8) : cstr (strncpy n t) = cstr (t.take n) := by
  induction n generalizing t with
  | zero => rfl
  | succ n ih =>
      rw [cstr_take_succ]
      unfold strncpy
      by_cases h0 : t.headD 0 = 0
      · rw [if_pos h0, if_pos h0, h0]
        rfl
      · have hcons : cstr (t.headD 0 :: strncpy n t.tail) = t.headD 0 :: cstr
          (strncpy n t.tail) := by
          unfold cstr
          rw [List.takeWhile_cons, if_pos (by simpa using h0)]
        rw [if_neg h0, if_neg h0, hcons, ih]

/-- The copy has the name that is compared. -/
theorem key_strncpy (name : List UInt8) : key (strncpy DIRSIZ name) = key name := by
  unfold key
  rw [List.take_of_length_le (Nat.le_of_eq (length_strncpy ..)), cstr_strncpy]

/-! ## Code -/

/-- The loop of `dirlookup`. -/
def lookupFrom (dp : Entry) (name : List UInt8) : List Nat → FM (Option (Nat × Nat))
  | [] => return none
  | off :: offs => do
      let de ← readDirent dp off "dirlookup read"
      if deInum de ≠ 0 ∧ namecmp name (de.drop 2) = 0 then return some (deInum de, off)
      lookupFrom dp name offs

/-- Look for a directory entry in a directory: the inode, and the byte offset of
the entry. -/
def dirlookup (dp : Entry) (name : List UInt8) : FM (Option (Entry × Nat)) := do
  let s ← get
  if (s.icache dp).din.type ≠ T_DIR then halt "dirlookup not DIR"
  match ← lookupFrom dp name (entryOffs (s.icache dp).din.size) with
  | none => return none
  | some (inum, off) => return some (← iget inum, off)

/-- An entry with the given fields; `de.inum` has two bytes. -/
def dirent (inum : Nat) (name : List UInt8) : List UInt8 :=
  UInt8.ofNat inum :: UInt8.ofNat (inum / 256) :: strncpy DIRSIZ name

/-- Write a new directory entry (name, inum) into the directory dp. -/
def dirlink (dp : Entry) (name : List UInt8) (inum : Nat) : FM Bool := do
  match ← dirlookup dp name with
  | some (ip, _) => do
      iput ip
      return false
  | none => do
      let s ← get
      let size := (s.icache dp).din.size
      let off ← emptyFrom dp size (entryOffs size)
      if (← writeContent dp (dirent inum name) off) = false then halt "dirlink"
      return true

/-- What `sys_unlink` does to the directory: the checks on the inode that is
unlinked, and its count of links, are left out. -/
def unlink (dp : Entry) (name : List UInt8) : FM Bool := do
  -- Cannot unlink "." or "..".
  if namecmp name [DOT] = 0 ∨ namecmp name [DOT, DOT] = 0 then return false
  match ← dirlookup dp name with
  | none => return false
  | some (ip, off) => do
      if (← writeContent dp (List.replicate SIZEOF_DIRENT 0) off) = false then
        halt "unlink: writei"
      iput ip
      return true

/-! ### The same code on strings

The system calls are modelled with names that are cut already. -/

section strings

variable {dp : Entry} {s : Kernel}

/-- An entry read has the size of an entry. -/
theorem readDirent_length (dp : Entry) (off : Nat) (msg : String) (s : Kernel) :
    wp (readDirent dp off msg) s (fun de _ => de.length = SIZEOF_DIRENT) fun _ => True := by
  unfold readDirent
  rw [wp_bind]
  refine wp_any fun r s1 => ?_
  cases r with
  | none => exact (wp_throw ..).2 trivial
  | some de =>
      refine wp_ite (fun _ => ?_) fun hlen => (wp_pure ..).2 (not_not.1 hlen)
      rw [wp_bind]
      exact (wp_throw ..).2 trivial

/-- The name in an entry is its key. -/
theorem deName_eq {de : List UInt8} (h : de.length = SIZEOF_DIRENT) :
    deName de = key (de.drop 2) := by
  unfold deName key
  rw [List.take_of_length_le]
  rw [List.length_drop, h]
  decide

/-- Looking a name up depends on its key alone. -/
theorem lookupFrom_eq (dp : Entry) (name : List UInt8) (offs : List Nat) :
    Fs.lookupFrom dp (key name) offs = lookupFrom dp name offs := by
  induction offs with
  | nil => rfl
  | cons off offs ih =>
      funext s
      refine (run_eq_of_wp fun Q E h => ?_ : (Fs.lookupFrom dp (key name) (off :: offs)).run s =
        (lookupFrom dp name (off :: offs)).run s)
      rw [lookupFrom, wp_bind] at h
      rw [Fs.lookupFrom, wp_bind]
      refine wp.mono (h.inter (readDirent_length dp off "dirlookup read" s)) ?_ fun _ he => he.1
      rintro de s1 ⟨h1, hlen⟩
      rw [ih]
      by_cases hfound : deInum de ≠ 0 ∧ namecmp name (de.drop 2) = 0
      · rw [if_pos hfound] at h1
        rw [if_pos ⟨hfound.1, (deName_eq hlen).trans ((namecmp_eq_zero ..).1 hfound.2).symm⟩]
        exact h1
      · rw [if_neg hfound] at h1
        rw [if_neg]
        · exact h1
        · rintro ⟨h0, hname⟩
          exact hfound ⟨h0, (namecmp_eq_zero ..).2 (hname.symm.trans (deName_eq hlen)).symm.symm⟩

theorem dirlookup_eq (dp : Entry) (name : List UInt8) :
    Fs.dirlookup dp (key name) = dirlookup dp name := by
  have h : Fs.lookupFrom dp (key name) = lookupFrom dp name := funext (lookupFrom_eq dp name)
  unfold Fs.dirlookup dirlookup
  exact h ▸ rfl

/-- `strncpy` fills up with zeros. -/
theorem strncpy_eq (n : Nat) (t : List UInt8) :
    strncpy n t = (List.range n).map fun i => (cstr (t.take n)).getD i 0 := by
  induction n generalizing t with
  | zero => rfl
  | succ n ih =>
      rw [cstr_take_succ, List.range_succ_eq_map, List.map_cons, List.map_map]
      unfold strncpy
      by_cases h0 : t.headD 0 = 0
      · rw [if_pos h0, if_pos h0, h0]
        congr 1
        refine (List.eq_replicate_iff.2 ⟨by rw [List.length_map, List.length_range], ?_⟩).symm
        intro b hb
        rcases List.mem_map.1 hb with ⟨i, -, rfl⟩
        rfl
      · rw [if_neg h0, if_neg h0, ih]
        rfl

theorem dirent_eq (inum : Nat) (name : List UInt8) :
    Fs.dirent inum (key name) = dirent inum name := by
  unfold Fs.dirent dirent key
  rw [strncpy_eq]

theorem dirlink_eq (dp : Entry) (name : List UInt8) (inum : Nat) :
    Fs.dirlink dp (key name) inum = dirlink dp name inum := by
  unfold Fs.dirlink dirlink
  exact dirlookup_eq dp name ▸ dirent_eq inum name ▸ rfl

end strings

/-! ## The table in the bytes -/

variable {c de name : List UInt8} {i inum : Nat}

/-- An entry is free if its number is zero. -/
def decode (de : List UInt8) : Option (List UInt8 × Nat) :=
  if deInum de = 0 then none else some (key (de.drop 2), deInum de)

/-- The bytes of entry `i`. -/
def entry (c : List UInt8) (i : Nat) : List UInt8 := (c.drop (i * SIZEOF_DIRENT)).take SIZEOF_DIRENT

/-- The directory with the bytes `c`. -/
def slots (c : List UInt8) : Slots (List UInt8) Nat :=
  (List.range (c.length / SIZEOF_DIRENT)).map fun i => decode (entry c i)

theorem length_slots (c : List UInt8) : (slots c).length = c.length / SIZEOF_DIRENT := by
  unfold slots
  rw [List.length_map, List.length_range]

theorem slots_getD (h : i < c.length / SIZEOF_DIRENT) :
    (slots c).getD i none = decode (entry c i) := by
  unfold slots
  rw [List.getD_eq_getElem?_getD, List.getElem?_map, List.getElem?_range h]
  rfl

/-- The test of `dirlookup`. -/
theorem decode_name (h : de.length = SIZEOF_DIRENT) :
    deInum de ≠ 0 ∧ deName de = name ↔ (decode de).map Prod.fst = some name := by
  unfold decode
  rw [deName_eq h]
  by_cases h0 : deInum de = 0
  · rw [if_pos h0]
    exact ⟨fun h => absurd h0 h.1, nofun⟩
  · rw [if_neg h0, Option.map_some, Option.some_inj]
    exact ⟨fun h => h.2, fun h => ⟨h0, h⟩⟩

theorem decode_none (de : List UInt8) : (decode de).isNone = true ↔ deInum de = 0 := by
  unfold decode
  split
  · next h => exact ⟨fun _ => h, fun _ => rfl⟩
  · next h => exact ⟨nofun, fun h' => absurd h' h⟩

/-- What is written is found under its name. -/
theorem decode_dirent (h0 : inum ≠ 0) (h : inum < 65536) :
    decode (dirent inum name) = some (key name, inum) := by
  have hinum : deInum (dirent inum name) = inum := by
    show (UInt8.ofNat inum).toNat + 256 * (UInt8.ofNat (inum / 256)).toNat = inum
    rw [UInt8.toNat_ofNat', UInt8.toNat_ofNat']
    omega
  unfold decode
  rw [hinum, if_neg h0]
  show some (key (strncpy DIRSIZ name), inum) = _
  rw [key_strncpy]

theorem decode_zeros : decode (List.replicate SIZEOF_DIRENT 0) = none := by decide

theorem length_entry (h : i < c.length / SIZEOF_DIRENT) : (entry c i).length = SIZEOF_DIRENT := by
  unfold entry
  rw [List.length_take, List.length_drop]
  unfold SIZEOF_DIRENT at *
  omega

theorem getD_entry (i : Nat) {k : Nat} (hk : k < SIZEOF_DIRENT) :
    (entry c i).getD k 0 = c.getD (i * SIZEOF_DIRENT + k) 0 := by
  unfold entry
  rw [List.getD_eq_getElem?_getD, List.getElem?_take_of_lt hk, List.getElem?_drop,
    ← List.getD_eq_getElem?_getD]

/-- One entry has been written. -/
theorem entry_splice {j : Nat} (hde : de.length = SIZEOF_DIRENT) (hi : i ≤ c.length / SIZEOF_DIRENT)
    (hj : j < c.length / SIZEOF_DIRENT ∨ j = i) :
    entry (splice c (i * SIZEOF_DIRENT) de) j = if j = i then de else entry c j := by
  have hoff : i * SIZEOF_DIRENT ≤ c.length := by
    unfold SIZEOF_DIRENT at *
    omega
  have hlen : j < (splice c (i * SIZEOF_DIRENT) de).length / SIZEOF_DIRENT := by
    rw [length_splice hoff, hde]
    unfold SIZEOF_DIRENT at *
    omega
  refine ext_getD 0 ?_ ?_
  · rw [length_entry hlen]
    by_cases hji : j = i
    · rw [if_pos hji, hde]
    · rw [if_neg hji, length_entry (hj.resolve_right hji)]
  · intro k hk
    rw [length_entry hlen] at hk
    rw [getD_entry _ hk, getD_splice 0 hoff, hde]
    by_cases hji : j = i
    · subst hji
      rw [if_pos rfl, if_pos (by omega), Nat.add_sub_cancel_left]
    · rw [if_neg hji, if_neg, getD_entry _ hk]
      intro hin
      rcases Nat.lt_or_gt_of_ne hji with hlt | hgt
      · unfold SIZEOF_DIRENT at *
        omega
      · unfold SIZEOF_DIRENT at *
        omega

/-- Writing an entry is a `put` on the slots. -/
theorem slots_splice (hwhole : SIZEOF_DIRENT ∣ c.length) (hde : de.length = SIZEOF_DIRENT)
    (hi : i ≤ c.length / SIZEOF_DIRENT) :
    SIZEOF_DIRENT ∣ (splice c (i * SIZEOF_DIRENT) de).length ∧
      slots (splice c (i * SIZEOF_DIRENT) de) = Slots.put (slots c) i (decode de) := by
  have hoff : i * SIZEOF_DIRENT ≤ c.length := by
    unfold SIZEOF_DIRENT at *
    omega
  have hlen : (splice c (i * SIZEOF_DIRENT) de).length =
      max (c.length / SIZEOF_DIRENT) (i + 1) * SIZEOF_DIRENT := by
    rw [length_splice hoff, hde]
    unfold SIZEOF_DIRENT at *
    omega
  have hnum : (splice c (i * SIZEOF_DIRENT) de).length / SIZEOF_DIRENT =
      max (c.length / SIZEOF_DIRENT) (i + 1) := by
    rw [hlen]
    exact Nat.mul_div_cancel _ (by decide)
  have hle : i ≤ (slots c).length := hi.trans (Nat.le_of_eq (length_slots c).symm)
  refine ⟨⟨_, hlen.trans (Nat.mul_comm _ _)⟩, ext_getD none ?_ ?_⟩
  · rw [length_slots, hnum, Slots.length_put hle, length_slots]
  · intro j hj
    rw [length_slots, hnum] at hj
    have hj' : j < c.length / SIZEOF_DIRENT ∨ j = i := by omega
    rw [slots_getD (hnum ▸ hj), entry_splice hde hi hj', Slots.put_getD hle]
    by_cases hji : j = i
    · rw [if_pos hji, if_pos hji]
    · rw [if_neg hji, if_neg hji, slots_getD (hj'.resolve_right hji)]

/-! ## The scans -/

variable {U : Nat → Prop} {s s' s1 : Kernel} {dp ip : Entry} {m : Node → Nat} {E : Stop → Prop}

/-- The offsets of the entries of a whole directory. -/
theorem entryOffs_whole (h : SIZEOF_DIRENT ∣ c.length) :
    entryOffs c.length = (List.range (slots c).length).map (· * SIZEOF_DIRENT) := by
  unfold entryOffs
  rw [length_slots]
  congr 2
  unfold SIZEOF_DIRENT at *
  omega

/-- Reading the entry in a slot. -/
theorem readDirent_wp {msg : String} (h : HasBytes U s dp m c) (hi : i < (slots c).length) :
    wp (readDirent dp (i * SIZEOF_DIRENT) msg) s (fun de s' => s' = s ∧ de = entry c i) E := by
  rw [length_slots] at hi
  have hfit := h.bytes.fits
  have hmax : MAXFILE * BSIZE < 2 ^ 32 := by decide
  have hlen := length_entry hi
  unfold readDirent
  rw [wp_bind]
  refine wp.mono (readBytes_wp h.mapped h.bytes) ?_ fun _ he => he
  rintro _ s1 ⟨rfl, rfl⟩
  unfold readSpec
  rw [if_neg (by unfold SIZEOF_DIRENT at *; omega)]
  show wp (if (entry c i).length ≠ SIZEOF_DIRENT then _ else _) s1 _ E
  rw [if_neg (not_not.2 hlen)]
  exact (wp_pure ..).2 ⟨rfl, rfl⟩

/-- The loop finds the first of the entries that has the name. -/
theorem lookupFrom_wp {is : List Nat} (h : HasBytes U s dp m c)
    (his : ∀ i ∈ is, i < (slots c).length) :
    wp (Fs.lookupFrom dp name (is.map (· * SIZEOF_DIRENT))) s (fun r s' => s' = s ∧
      r = (is.find? fun i => ((slots c).getD i none).map Prod.fst = some name).bind fun i =>
        ((slots c).getD i none).map fun e => (e.2, i * SIZEOF_DIRENT)) E := by
  induction is with
  | nil => exact (wp_pure ..).2 ⟨rfl, rfl⟩
  | cons i is ih =>
      have hi := his i List.mem_cons_self
      have hlt : i < c.length / SIZEOF_DIRENT := length_slots c ▸ hi
      have hslot : (slots c).getD i none = decode (entry c i) := slots_getD hlt
      unfold Fs.lookupFrom
      rw [List.map_cons, wp_bind]
      refine wp.mono (readDirent_wp h hi) ?_ fun _ he => he
      rintro _ s1 ⟨rfl, rfl⟩
      rw [List.find?_cons, hslot]
      by_cases hfound : deInum (entry c i) ≠ 0 ∧ deName (entry c i) = name
      · rw [if_pos hfound, decide_eq_true ((decode_name (length_entry hlt)).1 hfound),
          Option.bind_some, hslot]
        refine (wp_pure ..).2 ⟨rfl, ?_⟩
        unfold decode
        rw [if_neg hfound.1]
        rfl
      · rw [if_neg hfound, decide_eq_false fun hk => hfound ((decode_name (length_entry hlt)).2 hk)]
        exact ih fun j hj => his j (List.mem_cons_of_mem i hj)

/-- The loop finds the first free entry. -/
theorem emptyFrom_wp {is : List Nat} (h : HasBytes U s dp m c) (hwhole : SIZEOF_DIRENT ∣ c.length)
    (his : ∀ i ∈ is, i < (slots c).length) :
    wp (emptyFrom dp c.length (is.map (· * SIZEOF_DIRENT))) s (fun r s' => s' = s ∧
      r = ((is.find? fun i => ((slots c).getD i none).isNone).getD (slots c).length) *
        SIZEOF_DIRENT) E := by
  induction is with
  | nil =>
      refine (wp_pure ..).2 ⟨rfl, ?_⟩
      rw [entryOffs_whole hwhole, List.length_map, List.length_range]
      rfl
  | cons i is ih =>
      have hi := his i List.mem_cons_self
      have hslot : (slots c).getD i none = decode (entry c i) := slots_getD (length_slots c ▸ hi)
      unfold emptyFrom
      rw [List.map_cons, wp_bind]
      refine wp.mono (readDirent_wp h hi) ?_ fun _ he => he
      rintro _ s1 ⟨rfl, rfl⟩
      rw [List.find?_cons, hslot]
      by_cases hempty : deInum (entry c i) = 0
      · rw [if_pos hempty, (decode_none _).2 hempty]
        exact (wp_pure ..).2 ⟨rfl, rfl⟩
      · have hsome : (decode (entry c i)).isNone = false :=
          Bool.eq_false_iff.2 fun hn => hempty ((decode_none _).1 hn)
        rw [if_neg hempty, hsome]
        exact ih fun j hj => his j (List.mem_cons_of_mem i hj)

/-! ## One call -/

/-- The inode at `dp` is a directory with the bytes `c`. -/
structure Table (U : Nat → Prop) (s : Kernel) (dp : Entry) (m : Node → Nat) (c : List UInt8) :
    Prop where
  bytes : HasBytes U s dp m c
  type : (s.icache dp).din.type = T_DIR
  whole : SIZEOF_DIRENT ∣ c.length

/-- The caller has a reference to the directory and its lock, and no other lock. -/
structure IsDir (U : Nat → Prop) (s : Kernel) (dp : Entry) (m : Node → Nat) (c : List UInt8) : Prop
    extends Table U s dp m c where
  ref : 1 ≤ (s.icache dp).ref
  locked : (s.icache dp).locked = true
  alone : ∀ j, j ≠ dp → (s.icache j).locked = false
  own : ∀ j, 1 ≤ (s.icache j).ref → (s.icache j).inum = (s.icache dp).inum → j = dp

/-- The directory has been written. -/
theorem IsDir.written (h : IsDir U s dp m c) {m' : Node → Nat} {c' : List UInt8}
    (ht : Table U s' dp m' c') (hk : Kept U dp s s') : IsDir U s' dp m' c' where
  toTable := ht
  ref := by rw [hk.frame.entry]; exact h.ref
  locked := by rw [hk.frame.entry]; exact h.locked
  alone := by
    intro j hj
    rw [hk.frame.others j hj]
    exact h.alone j hj
  own := by
    intro j hj hinum
    by_cases hne : j = dp
    · exact hne
    · rw [hk.frame.others j hne] at hj hinum
      rw [hk.frame.inum] at hinum
      exact h.own j hj hinum

/-- The loop of `dirlookup` finds the first slot with the name. -/
theorem lookup_wp {Q : Option (Entry × Nat) → Kernel → Prop} (h : Table U s dp m c)
    (hnone : (slots c).lookup name = none → Q none s)
    (hsome : ∀ v i ip s', (slots c).lookup name = some (v, i) → Got v ip s s' →
      ((s.icache ip).ref = 0 → ∀ j, 1 ≤ (s.icache j).ref → (s.icache j).inum ≠ v) →
      Q (some (ip, i * SIZEOF_DIRENT)) s')
    (hE : ∀ v i, (slots c).lookup name = some (v, i) →
      (∀ j, 1 ≤ (s.icache j).ref ∧ (s.icache j).inum ≠ v) → E (.panic "iget: no inodes")) :
    wp (Fs.dirlookup dp name) s Q E := by
  unfold Fs.dirlookup
  simp only [wp_bind, wp_get]
  rw [if_neg (not_not.2 h.type), h.bytes.bytes.size, entryOffs_whole h.whole, wp_bind]
  refine wp.mono (lookupFrom_wp h.bytes fun i hi => List.mem_range.1 hi) ?_ fun _ he => he
  rintro r s1 ⟨rfl, hr⟩
  -- the first entry with the name is the slot that holds it
  have hlook : r = ((slots c).lookup name).map fun e => (e.1, e.2 * SIZEOF_DIRENT) := by
    rw [hr]
    unfold Slots.lookup Slots.index
    rw [Option.map_bind]
    congr 1
    funext i
    rw [Function.comp_apply, Option.map_map]
    rfl
  -- not there; or there, and `iget` gives its inode
  cases hl : (slots c).lookup name with
  | none =>
      rw [hl] at hlook
      subst hlook
      exact (wp_pure ..).2 (hnone hl)
  | some e =>
      rcases e with ⟨v, i⟩
      rw [hl] at hlook
      subst hlook
      show wp (iget v >>= fun ip => pure (some (ip, i * SIZEOF_DIRENT))) s1 Q E
      rw [wp_bind]
      refine iget_rule ?_ (hE v i hl)
      intro ip s' hg hnew
      exact (wp_pure ..).2 (hsome v i ip s' hl hg hnew)

/-- `dirlookup` on a table finds what the slots hold. -/
theorem dirlookup_wp {Q : Option (Entry × Nat) → Kernel → Prop} (h : Table U s dp m c)
    (hnone : (slots c).lookup (key name) = none → Q none s)
    (hsome : ∀ v i ip s', (slots c).lookup (key name) = some (v, i) → Got v ip s s' →
      ((s.icache ip).ref = 0 → ∀ j, 1 ≤ (s.icache j).ref → (s.icache j).inum ≠ v) →
      Q (some (ip, i * SIZEOF_DIRENT)) s')
    (hE : ∀ v i, (slots c).lookup (key name) = some (v, i) →
      (∀ j, 1 ≤ (s.icache j).ref ∧ (s.icache j).inum ≠ v) → E (.panic "iget: no inodes")) :
    wp (dirlookup dp name) s Q E := by
  rw [← dirlookup_eq]
  exact lookup_wp h hnone hsome hE

/-- Another entry of the cache has changed. -/
theorem IsDir.setInode {f : Inode → Inode} (h : IsDir U s dp m c) (hne : ip ≠ dp)
    (hlock : (f (s.icache ip)).locked = false)
    (hinum : 1 ≤ (f (s.icache ip)).ref → (f (s.icache ip)).inum ≠ (s.icache dp).inum) :
    IsDir U (s.setInode ip f) dp m c := by
  have hdir : (s.setInode ip f).icache dp = s.icache dp := setInode_of_ne (Ne.symm hne)
  refine ⟨⟨⟨h.bytes.mapped.congr rfl ?_ fun _ _ => rfl, ?_, ?_⟩, ?_, h.whole⟩, ?_, ?_, ?_, ?_⟩
  · intro k _
    rw [hdir]
  · rw [hdir]
    exact h.bytes.bytes
  · rw [hdir]
    exact h.bytes.inum
  · rw [hdir]
    exact h.type
  · rw [hdir]
    exact h.ref
  · rw [hdir]
    exact h.locked
  -- the other entries do not cache the directory
  · intro j hj
    by_cases hji : j = ip
    · rw [hji, setInode_self]
      exact hlock
    · rw [setInode_of_ne hji]
      exact h.alone j hj
  · intro j hj hi
    rw [hdir] at hi
    by_cases hji : j = ip
    · rw [hji, setInode_self] at hj hi
      exact absurd hi (hinum hj)
    · rw [setInode_of_ne hji] at hj hi
      exact h.own j hj hi

/-- What a reference to another inode does to the directory. -/
theorem got_isDir {v : Nat} (hg : Got v ip s s1) (h : IsDir U s dp m c)
    (hv : v ≠ (s.icache dp).inum) :
    ip ≠ dp ∧ IsDir U s1 dp m c ∧ s1.disk = s.disk ∧ s1.icache dp = s.icache dp ∧
      (s1.icache ip).inum = v ∧ ¬ Last (s1.icache ip) ∧
      ∀ j, (s1.icache j).ref = (s.icache j).ref + one ip j := by
  -- the inode found is not the directory's own
  have hne : ip ≠ dp := by
    rintro rfl
    cases hg with
    | found _ hinum _ => exact hv hinum.symm
    | taken href _ => exact absurd h.ref (by rw [href]; decide)
  have hrefs := hg.moved.refs
  refine ⟨hne, ?_⟩
  cases hg with
  -- it was in the cache, or an entry is recycled
  | found href hinum he =>
      have hlast : ¬ Last (s1.icache ip) := by
        rw [he.self]
        intro hl
        have hone : (s.icache ip).ref + 1 = 1 := hl.2.2
        omega
      refine ⟨?_, by rw [he]; rfl, he.other (Ne.symm hne), ?_, hlast, hrefs⟩
      · rw [he]
        exact h.setInode hne (h.alone ip hne) fun _ => by rw [hinum]; exact hv
      · rw [he.self]
        exact hinum
  | taken href he =>
      have hlast : ¬ Last (s1.icache ip) := by
        rw [he.self]
        intro hl
        cases hl.1
      refine ⟨?_, by rw [he]; rfl, he.other (Ne.symm hne), ?_, hlast, hrefs⟩
      · rw [he]
        exact h.setInode hne (h.alone ip hne) fun _ => hv
      · rw [he.self]

/-- The other inode is given back. -/
theorem iput_wp {Q : Unit → Kernel → Prop} (h : IsDir U s dp m c) (hne : ip ≠ dp)
    (href : 1 ≤ (s.icache ip).ref) (hlast : ¬ Last (s.icache ip))
    (hQ : ∀ s', IsDir U s' dp m c → s'.disk = s.disk → s'.icache dp = s.icache dp →
      (∀ j, (s'.icache j).ref + one ip j = (s.icache j).ref) → Q () s') :
    wp (iput ip) s Q E := by
  refine iput_keep_wp (h.alone ip hne) hlast (hQ _ ?_ rfl (setInode_of_ne (Ne.symm hne)) ?_)
  · exact h.setInode hne rfl fun _ hi => hne (h.own ip href hi)
  · intro j
    by_cases hj : j = ip
    · rw [hj, setInode_self, one_self]
      exact Nat.sub_add_cancel href
    · rw [setInode_of_ne hj, one_of_ne hj]
      rfl

/-- Entry `i` is written; the blocks that this takes are on the way to its block. -/
theorem writeEntry_wp {T : Finset Node} (h : Table U s dp m c) (hde : de.length = SIZEOF_DIRENT)
    (hi : i ≤ (slots c).length) (hfit : i * SIZEOF_DIRENT + SIZEOF_DIRENT ≤ MAXFILE * BSIZE)
    (hm : ∀ y, m y ≠ 0 → y ∈ T)
    (hT : ∀ y : Node, y.Above (leaf (i * SIZEOF_DIRENT / BSIZE)) → y ∈ T)
    (hE : room U < T.card → E (.panic "balloc: out of blocks")) :
    wp (writeContent dp de (i * SIZEOF_DIRENT)) s (fun r s' => r = true ∧ Kept U dp s s' ∧
      (s'.icache dp).din.nlink = (s.icache dp).din.nlink ∧
      slots (splice c (i * SIZEOF_DIRENT) de) = (slots c).put i (decode de) ∧
      ∃ m', Table U s' dp m' (splice c (i * SIZEOF_DIRENT) de) ∧ ∀ y, m' y ≠ 0 → y ∈ T) E := by
  rw [length_slots] at hi
  rcases h.whole with ⟨n, hn⟩
  have hmax : MAXFILE * BSIZE < 2 ^ 32 := by decide
  -- the entry is within the largest file, so the write is not refused
  have href : ¬ Refused c (i * SIZEOF_DIRENT) de.length := by
    unfold Refused
    rw [hde]
    unfold SIZEOF_DIRENT at *
    omega
  refine wp.mono (writeBytes_wp h.bytes hm href (fun bn hbn y hy => ?_) hE) ?_ fun _ he => he
  · -- the entry is in a block that is there, or in the next one
    by_cases hold : bn * BSIZE < c.length
    · have hleaf := (h.bytes.bytes.stores (bn * BSIZE) hold).1
      rw [Nat.mul_div_cancel _ BSIZE_pos] at hleaf
      exact hm y (h.bytes.bytes.tree.up hleaf hy)
    · have hbn' : bn = i * SIZEOF_DIRENT / BSIZE := by
        rw [hde] at hbn
        unfold SIZEOF_DIRENT BSIZE at *
        omega
      exact hT y (hbn' ▸ hy)
  · rintro r s1 ⟨rfl, hk, ⟨htype, hnlink⟩, m1, hb, hm1⟩
    rcases slots_splice h.whole hde hi with ⟨hwhole, hslots⟩
    exact ⟨rfl, hk, hnlink, hslots, m1, ⟨hb, htype.trans h.type, hwhole⟩, hm1⟩

theorem kept_ref (hk : Kept U dp s s') (j : Entry) : (s'.icache j).ref = (s.icache j).ref := by
  by_cases hj : j = dp
  · rw [hj, hk.frame.entry]
  · rw [hk.frame.others j hj]

/-- A link with a name that is there changes nothing. -/
theorem dirlink_present {v j : Nat} (h : IsDir U s dp m c)
    (hl : (slots c).lookup (key name) = some (v, j)) (hv : v ≠ (s.icache dp).inum)
    (hE : (∀ j, 1 ≤ (s.icache j).ref) → E (.panic "iget: no inodes")) :
    wp (dirlink dp name inum) s (fun r s' => r = false ∧ IsDir U s' dp m c ∧ s'.disk = s.disk ∧
      s'.icache dp = s.icache dp ∧ ∀ j, (s'.icache j).ref = (s.icache j).ref) E := by
  unfold dirlink
  rw [wp_bind]
  refine dirlookup_wp h.toTable ?_ ?_ fun _ _ _ hall => hE fun j => (hall j).1
  · intro hno
    rw [hl] at hno
    cases hno
  · rintro _ _ ip s1 hl' hg -
    rw [hl] at hl'
    cases hl'
    rcases got_isDir hg h hv with ⟨hne, h1, hdisk, hdir, -, hlast, href⟩
    dsimp only
    rw [wp_bind]
    refine iput_wp h1 hne (by rw [href, one_self]; omega) hlast fun s2 h2 hdisk2 hdir2 href2 => ?_
    refine (wp_pure ..).2 ⟨rfl, h2, hdisk2.trans hdisk, hdir2.trans hdir, fun j => ?_⟩
    have hj := href2 j
    rw [href] at hj
    omega

theorem length_cutDirent (inum : Nat) (name : List UInt8) :
    (Fs.dirent inum name).length = SIZEOF_DIRENT := by
  unfold Fs.dirent
  rw [List.length_cons, List.length_cons, List.length_map, List.length_range]
  rfl

/-- A link with a name that is not there writes the first free entry. -/
theorem link_wp {T : Finset Node} (h : Table U s dp m c) (hl : (slots c).lookup name = none)
    (hm : ∀ y, m y ≠ 0 → y ∈ T)
    (hT : ∀ y : Node, y.Above (leaf ((slots c).free * SIZEOF_DIRENT / BSIZE)) → y ∈ T)
    (hblocks : room U < T.card → E (.panic "balloc: out of blocks"))
    (hfull : MAXFILE * BSIZE < ((slots c).length + 1) * SIZEOF_DIRENT → E (.panic "dirlink")) :
    wp (Fs.dirlink dp name inum) s (fun r s' => r = true ∧ Kept U dp s s' ∧
      (s'.icache dp).din.nlink = (s.icache dp).din.nlink ∧
      slots (splice c ((slots c).free * SIZEOF_DIRENT) (Fs.dirent inum name)) =
        (slots c).put (slots c).free (decode (Fs.dirent inum name)) ∧
      ∃ m', Table U s' dp m' (splice c ((slots c).free * SIZEOF_DIRENT) (Fs.dirent inum name)) ∧
        ∀ y, m' y ≠ 0 → y ∈ T) E := by
  unfold Fs.dirlink
  rw [wp_bind]
  refine lookup_wp h ?_ ?_ ?_
  -- the name is not there: the first free slot is written
  · intro _
    simp only [wp_bind, wp_get]
    rw [h.bytes.bytes.size]
    rw [entryOffs_whole h.whole]
    refine wp.mono (emptyFrom_wp h.bytes h.whole fun i hi => List.mem_range.1 hi) ?_ fun _ he => he
    rintro _ s1 ⟨rfl, rfl⟩
    show wp (writeContent dp (Fs.dirent inum name) ((slots c).free * SIZEOF_DIRENT)) s1 _ E
    have hfree := Slots.free_le (slots c)
    by_cases hfit : (slots c).free * SIZEOF_DIRENT + SIZEOF_DIRENT ≤ MAXFILE * BSIZE
    · refine wp.mono (writeEntry_wp h (length_cutDirent ..) hfree hfit hm hT hblocks) ?_ fun _ he =>
        he
      rintro _ s2 ⟨rfl, hk, hnlink, hslots, h2⟩
      exact (wp_pure ..).2 ⟨rfl, hk, hnlink, hslots, h2⟩
    -- the directory is as large as a file can be: `dirlink` panics
    · have href : Refused c ((slots c).free * SIZEOF_DIRENT) (Fs.dirent inum name).length := by
        unfold Refused
        rw [length_cutDirent]
        omega
      refine wp.mono (writeBytes_refused h.bytes.bytes.size href) ?_ fun _ he => he
      rintro _ s2 ⟨rfl, rfl⟩
      refine wp_ite (fun _ => ?_) fun hno => absurd rfl hno
      rw [wp_bind]
      refine (wp_throw ..).2 (hfull ?_)
      unfold SIZEOF_DIRENT at *
      omega
  · intro v j ip s1 hsome
    rw [hl] at hsome
    cases hsome
  · intro v j hsome
    rw [hl] at hsome
    cases hsome

/-- A link with a name that is not there takes the first free entry. -/
theorem dirlink_absent {T : Finset Node} (h : Table U s dp m c)
    (hl : (slots c).lookup (key name) = none) (h0 : inum ≠ 0) (hlt : inum < 65536)
    (hm : ∀ y, m y ≠ 0 → y ∈ T)
    (hT : ∀ y : Node, y.Above (leaf ((slots c).free * SIZEOF_DIRENT / BSIZE)) → y ∈ T)
    (hblocks : room U < T.card → E (.panic "balloc: out of blocks"))
    (hfull : MAXFILE * BSIZE < ((slots c).length + 1) * SIZEOF_DIRENT → E (.panic "dirlink")) :
    wp (dirlink dp name inum) s (fun r s' => r = true ∧ Kept U dp s s' ∧
      slots (splice c ((slots c).free * SIZEOF_DIRENT) (dirent inum name)) =
        (slots c).place (key name) inum ∧
      ∃ m', Table U s' dp m' (splice c ((slots c).free * SIZEOF_DIRENT) (dirent inum name)) ∧
        ∀ y, m' y ≠ 0 → y ∈ T) E := by
  have hw := @link_wp c (key name) inum _ _ _ _ E T h hl hm hT hblocks hfull
  rw [dirlink_eq, dirent_eq, decode_dirent h0 hlt] at hw
  refine wp.mono hw ?_ fun _ he => he
  rintro _ s' ⟨hr, hk, -, h'⟩
  exact ⟨hr, hk, h'⟩

/-- A name that is the directory's own: the lock is taken again. -/
theorem dirlink_own {j : Nat} (h : IsDir U s dp m c)
    (hl : (slots c).lookup (key name) = some ((s.icache dp).inum, j)) :
    wp (dirlink dp name inum) s (fun _ _ => False) fun e => e = .deadlock := by
  unfold dirlink
  rw [wp_bind]
  refine dirlookup_wp h.toTable ?_ ?_ ?_
  · intro hnone
    rw [hl] at hnone
    cases hnone
  · rintro v _ ip s1 hl' hg hnew
    rw [hl] at hl'
    cases hl'
    -- it is found in the cache
    have hip : ip = dp := by
      cases hg with
      | found href hinum _ => exact h.own ip href hinum
      | taken href _ => exact absurd rfl (hnew href dp h.ref)
    have hlock : (s1.icache ip).locked = true := by
      subst hip
      cases hg with
      | found _ _ he =>
          rw [he.self]
          exact h.locked
      | taken href _ => exact absurd h.ref (by rw [href]; decide)
    dsimp only
    unfold iput acquiresleep
    simp only [wp_bind, wp_get]
    rw [if_pos hlock, wp_bind]
    exact (wp_throw ..).2 rfl
  · intro v _ hl' hall
    rw [hl] at hl'
    cases hl'
    exact absurd rfl (hall dp).2

/-- An entry is removed. -/
theorem unlink_some {T : Finset Node} {v j : Nat} (h : IsDir U s dp m c)
    (hdots : ¬ (namecmp name [DOT] = 0 ∨ namecmp name [DOT, DOT] = 0))
    (hl : (slots c).lookup (key name) = some (v, j)) (hv : v ≠ (s.icache dp).inum)
    (hm : ∀ y, m y ≠ 0 → y ∈ T) (hblocks : room U < T.card → E (.panic "balloc: out of blocks"))
    (hinodes : (∀ j, 1 ≤ (s.icache j).ref) → E (.panic "iget: no inodes")) :
    wp (unlink dp name) s (fun r s' => r = true ∧ (∃ m' c', IsDir U s' dp m' c' ∧
      slots c' = (slots c).remove (key name) ∧ ∀ y, m' y ≠ 0 → y ∈ T) ∧
      (s'.icache dp).inum = (s.icache dp).inum ∧ ∀ j, (s'.icache j).ref = (s.icache j).ref) E := by
  have hat := Slots.lookup_some hl
  have hj := hat.lt
  -- clearing the slot is removing the name, for it is the first with it
  have hremove : (slots c).remove (key name) = (slots c).put j none := by
    unfold Slots.lookup at hl
    unfold Slots.remove Slots.put
    cases hidx : (slots c).index (key name) with
    | none =>
        rw [hidx] at hl
        cases hl
    | some k =>
        rcases Slots.index_some hidx with ⟨w, hk⟩
        rw [hidx, Option.bind_some, Slots.getD_of_at hk] at hl
        cases hl
        rw [if_pos hj]
  have hcell : j * SIZEOF_DIRENT < c.length := by
    rw [length_slots] at hj
    unfold SIZEOF_DIRENT at *
    omega
  unfold unlink
  rw [if_neg hdots, wp_bind]
  -- the lookup finds the slot, its entry is zeroed, and the inode is put
  refine dirlookup_wp h.toTable ?_ ?_ fun _ _ _ hall => hinodes fun j => (hall j).1
  · intro hno
    rw [hl] at hno
    cases hno
  · rintro _ _ ip s1 hl' hg -
    rw [hl] at hl'
    cases hl'
    rcases got_isDir hg h hv with ⟨hne, h1, -, hdir, -, hlast, href⟩
    simp only [wp_bind]
    refine wp.mono (@writeEntry_wp _ _ _ _ _ _ _ E T h1.toTable List.length_replicate
      (Nat.le_of_lt hj) ?_ hm ?_
      hblocks) ?_ fun _ he => he
    · have hfit := h.bytes.bytes.fits
      rw [length_slots] at hj
      unfold SIZEOF_DIRENT at *
      omega
    · intro y hy
      exact hm y (h.bytes.bytes.tree.up (h.bytes.bytes.stores _ hcell).1 hy)
    · rintro _ s2 ⟨rfl, hk, -, hslots, m2, ht2, hm2⟩
      have h2 := h1.written ht2 hk
      have hentry : s2.icache ip = s1.icache ip := hk.frame.others ip hne
      refine wp_ite (fun hno => Bool.noConfusion hno) fun _ => ?_
      rw [wp_bind]
      refine iput_wp h2 hne ?_ ?_ fun s3 h3 _ hdir3 href3 => ?_
      · rw [hentry, href, one_self]
        omega
      · rw [hentry]
        exact hlast
      · rw [decode_zeros] at hslots
        refine (wp_pure ..).2 ⟨rfl, ⟨m2, _, h3, hslots.trans hremove.symm, hm2⟩, ?_, fun j => ?_⟩
        · rw [hdir3, hk.frame.inum, hdir]
        · have hj := href3 j
          rw [kept_ref hk, href] at hj
          omega

/-! ## Any calls -/

inductive Op
  | link (name : List UInt8) (inum : Nat)
  | unlink (name : List UInt8)

def Op.call (dp : Entry) : Op → FM Bool
  | .link name inum => dirlink dp name inum
  | .unlink name => Dir.unlink dp name

def run (dp : Entry) : List Op → FM (List Bool)
  | [] => return []
  | op :: ops => do
      let r ← op.call dp
      return r :: (← run dp ops)

/-- The call removes what has the key `k`. -/
def Op.Removes (k : List UInt8) : Op → Prop
  | .link _ _ => False
  | .unlink name => key name = k ∧ ¬ (namecmp name [DOT] = 0 ∨ namecmp name [DOT, DOT] = 0)

instance (k : List UInt8) (op : Op) : Decidable (op.Removes k) := by
  cases op with
  | link => exact inferInstanceAs (Decidable False)
  | unlink name => exact inferInstanceAs (Decidable (_ ∧ _))

/-- The call on a table. -/
def Op.spec (l : Slots (List UInt8) Nat) : Op → Bool × Slots (List UInt8) Nat
  | .link name inum =>
      if l.lookup (key name) = none then (true, l.place (key name) inum) else (false, l)
  | .unlink name =>
      if (Op.unlink name).Removes (key name) ∧ l.lookup (key name) ≠ none then
        (true, l.remove (key name))
      else (false, l)

def specs (l : Slots (List UInt8) Nat) : List Op → List Bool × Slots (List UInt8) Nat
  | [] => ([], l)
  | op :: ops =>
      let (r, l) := op.spec l
      let (rs, l) := specs l ops
      (r :: rs, l)

/-- The arguments of a call: an inode number has two bytes. -/
def Op.Valid : Op → Prop
  | .link _ inum => inum ≠ 0 ∧ inum < 65536
  | .unlink _ => True

/-- The call does not come to an entry for the inode `v`. -/
def Op.Clear (v : Nat) (l : Slots (List UInt8) Nat) : Op → Prop
  | .link name _ => ∀ i, l.lookup (key name) ≠ some (v, i)
  | .unlink name => (Op.unlink name).Removes (key name) → ∀ i, l.lookup (key name) ≠ some (v, i)

def Clears (v : Nat) (l : Slots (List UInt8) Nat) : List Op → Prop
  | [] => True
  | op :: ops => op.Clear v l ∧ Clears v (op.spec l).2 ops

/-- `v` in slot `i` is what was linked last under the key `k`, and not removed. -/
def Linked (l : Slots (List UInt8) Nat) (ops : List Op) (k : List UInt8) (v i : Nat) : Prop :=
  (l.lookup k = some (v, i) ∧ ∀ op ∈ ops, ¬ op.Removes k) ∨
    ∃ pre name post, ops = pre ++ .link name v :: post ∧ key name = k ∧
      (specs l pre).2.lookup k = none ∧ i = (specs l pre).2.free ∧ ∀ op ∈ post, ¬ op.Removes k

/-- What there was not enough of for `n` calls. -/
inductive Exhausted (s : Kernel) (c : List UInt8) (n : Nat) : Stop → Prop
  | blocks (h : s.disk.nfree < 4 * n) : Exhausted s c n (.panic "balloc: out of blocks")
  | inodes (h : ∀ j, 1 ≤ (s.icache j).ref) : Exhausted s c n (.panic "iget: no inodes")
  | size (h : MAXFILE * BSIZE < c.length + n * SIZEOF_DIRENT) : Exhausted s c n (.panic "dirlink")

variable {l : Slots (List UInt8) Nat} {k : List UInt8} {v : Nat} {op : Op} {ops : List Op}

theorem spec_link (h : l.lookup (key name) = none) :
    (Op.link name inum).spec l = (true, l.place (key name) inum) := if_pos h

theorem spec_link_present (h : l.lookup (key name) ≠ none) :
    (Op.link name inum).spec l = (false, l) := if_neg h

theorem spec_unlink (hr : (Op.unlink name).Removes (key name)) (h : l.lookup (key name) ≠ none) :
    (Op.unlink name).spec l = (true, l.remove (key name)) := if_pos ⟨hr, h⟩

theorem spec_unlink_refused (h : ¬ ((Op.unlink name).Removes (key name) ∧
      l.lookup (key name) ≠ none)) :
    (Op.unlink name).spec l = (false, l) := if_neg h

theorem not_removes_link : ¬ (Op.link name inum).Removes k := id

/-- What a call leaves under the key `k`. -/
def Op.update (l : Slots (List UInt8) Nat) (k : List UInt8) (op : Op) : Option (Nat × Nat) :=
  if op.Removes k then none
  else
    match op with
    | .link name inum =>
        if key name = k ∧ l.lookup k = none then some (inum, l.free) else l.lookup k
    | .unlink _ => l.lookup k

/-- A call is an update of the map. -/
theorem spec_map (hd : l.Distinct) (op : Op) :
    (op.spec l).2.Distinct ∧ ∀ k, (op.spec l).2.lookup k = op.update l k := by
  cases op with
  | link name inum =>
      have hup : ∀ k, (Op.link name inum).update l k =
          if key name = k ∧ l.lookup k = none then some (inum, l.free) else l.lookup k := fun _ =>
        if_neg not_removes_link
      -- linking a name that is there is refused
      by_cases hl : l.lookup (key name) = none
      · rw [spec_link hl]
        refine ⟨Slots.distinct_place hd hl, fun k => ?_⟩
        rw [hup, Slots.lookup_place hd hl]
        by_cases hk : key name = k
        · subst hk
          rw [Function.update_self, if_pos ⟨rfl, hl⟩]
        · rw [Function.update_of_ne (Ne.symm hk), if_neg fun h => hk h.1]
      · rw [spec_link_present hl]
        refine ⟨hd, fun k => ?_⟩
        rw [hup, if_neg]
        rintro ⟨rfl, h⟩
        exact hl h
  | unlink name =>
      have hup : ∀ k, (Op.unlink name).update l k =
          if (Op.unlink name).Removes k then none else l.lookup k := fun _ => rfl
      -- unlinking one that is not there, or `.` or `..`, is refused
      by_cases hr : (Op.unlink name).Removes (key name) ∧ l.lookup (key name) ≠ none
      · rw [spec_unlink hr.1 hr.2]
        refine ⟨Slots.distinct_remove hd, fun k => ?_⟩
        rw [hup, Slots.lookup_remove hd]
        by_cases hk : key name = k
        · subst hk
          rw [Function.update_self, if_pos hr.1]
        · rw [Function.update_of_ne (Ne.symm hk), if_neg fun h => hk h.1]
      · rw [spec_unlink_refused hr]
        refine ⟨hd, fun k => ?_⟩
        rw [hup]
        by_cases hk : (Op.unlink name).Removes k
        · rw [if_pos hk]
          rcases hk with ⟨rfl, hdots⟩
          by_contra hne
          exact hr ⟨⟨rfl, hdots⟩, hne⟩
        · rw [if_neg hk]

theorem specs_distinct (hd : l.Distinct) (ops : List Op) : (specs l ops).2.Distinct := by
  induction ops generalizing l with
  | nil => exact hd
  | cons op ops ih => exact ih (spec_map hd op).1

theorem specs_append (l : Slots (List UInt8) Nat) (ops : List Op) (op : Op) :
    (specs l (ops ++ [op])).2 = (op.spec (specs l ops).2).2 := by
  induction ops generalizing l with
  | nil => rfl
  | cons op' ops ih => exact ih (op'.spec l).2

/-- What is linked after one operation more: by that operation, or before and not removed
since. -/
theorem linked_append {i : Nat} : Linked l (ops ++ [op]) k v i ↔
    (¬ op.Removes k ∧ Linked l ops k v i) ∨ ∃ name, op = .link name v ∧ key name = k ∧
      (specs l ops).2.lookup k = none ∧ i = (specs l ops).2.free := by
  constructor
  · rintro (⟨h, hno⟩ | ⟨pre, name, post, hops, hk, hnone, hi, hno⟩)
    · exact .inl ⟨hno op (by simp), .inl ⟨h, fun o ho => hno o (List.mem_append_left _ ho)⟩⟩
    · rcases List.eq_nil_or_concat post with rfl | ⟨post, o, rfl⟩
      · rcases List.append_inj' hops rfl with ⟨rfl, hop⟩
        exact .inr ⟨name, List.singleton_inj.1 hop, hk, hnone, hi⟩
      · rw [List.concat_eq_append, ← List.cons_append, ← List.append_assoc] at hops
        rcases List.append_inj' hops rfl with ⟨rfl, hop⟩
        rcases List.singleton_inj.1 hop with rfl
        refine .inl ⟨hno op (by simp), .inr ⟨pre, name, post, rfl, hk, hnone, hi, fun o ho => ?_⟩⟩
        exact hno o (by rw [List.concat_eq_append]; exact List.mem_append_left _ ho)
  · rintro (⟨hop, ⟨h, hno⟩ | ⟨pre, name, post, rfl, hk, hnone, hi, hno⟩⟩ |
      ⟨name, rfl, hk, hnone, hi⟩)
    · refine .inl ⟨h, fun o ho => ?_⟩
      rcases List.mem_append.1 ho with ho | ho
      · exact hno o ho
      · rw [List.mem_singleton.1 ho]
        exact hop
    · refine .inr ⟨pre, name, post ++ [op], by simp, hk, hnone, hi, fun o ho => ?_⟩
      rcases List.mem_append.1 ho with ho | ho
      · exact hno o ho
      · rw [List.mem_singleton.1 ho]
        exact hop
    · exact .inr ⟨ops, name, [], rfl, hk, hnone, hi, nofun⟩

/-- A lookup finds what was linked last and not removed. -/
theorem lookup_specs (hd : l.Distinct) (ops : List Op) (k : List UInt8) (v i : Nat) :
    (specs l ops).2.lookup k = some (v, i) ↔ Linked l ops k v i := by
  -- from the last call backwards
  induction ops using List.reverseRecOn generalizing v i with
  | nil =>
      constructor
      · intro h
        exact .inl ⟨h, nofun⟩
      · rintro (⟨h, -⟩ | ⟨pre, name, post, hops, -⟩)
        · exact h
        · cases pre <;> cases hops
  | append_singleton ops op ih =>
      rw [specs_append, (spec_map (specs_distinct hd ops) op).2, linked_append, ← ih]
      unfold Op.update
      cases op with
      | link name inum =>
          rw [if_neg not_removes_link]
          dsimp only
          constructor
          · intro h
            split at h
            · next hc =>
                cases h
                exact .inr ⟨name, rfl, hc.1, hc.2, rfl⟩
            · exact .inl ⟨not_removes_link, h⟩
          · rintro (⟨-, h⟩ | ⟨name', hop, hk, hnone, rfl⟩)
            · rw [if_neg fun hc => by rw [hc.2] at h; cases h]
              exact h
            · cases hop
              rw [if_pos ⟨hk, hnone⟩]
      | unlink name =>
          dsimp only
          constructor
          · intro h
            split at h
            · cases h
            · next hr => exact .inl ⟨hr, h⟩
          · rintro (⟨hr, h⟩ | ⟨name', hop, -⟩)
            · rw [if_neg hr]
              exact h
            · cases hop

/-! ### Runs -/

/-- A block has at most three indirect blocks above it. -/
theorem card_ups (bn : Nat) : (leaf bn).ups.card ≤ 4 := by
  have hpath : (leaf bn).path.length ≤ 3 := by
    unfold leaf
    dsimp only
    split
    · exact Nat.zero_le _
    · split
      · show 1 ≤ 3
        decide
      · split
        · show 2 ≤ 3
          decide
        · exact Nat.le_refl 3
  unfold Node.ups
  refine Finset.card_image_le.trans ((List.toFinset_card_le _).trans ?_)
  rw [List.length_tails]
  omega

/-- What a call leaves: the directory with the table `l`, and no more or fewer
references. -/
structure After (U : Nat → Prop) (dp : Entry) (s : Kernel) (l : Slots (List UInt8) Nat)
    (T : Finset Node) (s' : Kernel) : Prop where
  inum : (s'.icache dp).inum = (s.icache dp).inum
  ref : ∀ j, (s'.icache j).ref = (s.icache j).ref
  dir : ∃ m c, IsDir U s' dp m c ∧ slots c = l ∧ ∀ y, m y ≠ 0 → y ∈ T

/-- One call does what it does on the table. -/
theorem call_wp {T : Finset Node} (h : IsDir U s dp m c) (op : Op) (hvalid : op.Valid)
    (hclear : op.Clear (s.icache dp).inum (slots c)) (hm : ∀ y, m y ≠ 0 → y ∈ T)
    (hblocks : room U < T.card + 4 → E (.panic "balloc: out of blocks"))
    (hinodes : (∀ j, 1 ≤ (s.icache j).ref) → E (.panic "iget: no inodes"))
    (hfull : MAXFILE * BSIZE < ((slots c).length + 1) * SIZEOF_DIRENT → E (.panic "dirlink")) :
    wp (op.call dp) s (fun r s' => r = (op.spec (slots c)).1 ∧
      ∃ T' : Finset Node, T'.card ≤ T.card + 4 ∧ After U dp s (op.spec (slots c)).2 T' s') E := by
  have hsame : After U dp s (slots c) T s := ⟨rfl, fun _ => rfl, m, c, h, rfl, hm⟩
  have hle : T.card ≤ T.card + 4 := Nat.le_add_right _ _
  cases op with
  | link name inum =>
      -- the name is there: its inode is got and put, and the table stays
      cases hl : (slots c).lookup (key name) with
      | some e =>
          rcases e with ⟨v, j⟩
          rw [spec_link_present (by rw [hl]; exact nofun)]
          have hv : v ≠ (s.icache dp).inum := by
            rintro rfl
            exact hclear j hl
          refine wp.mono (dirlink_present h hl hv hinodes) ?_ fun _ he => he
          rintro _ s1 ⟨rfl, h1, -, hdir, href⟩
          exact ⟨rfl, T, hle, by rw [hdir], href, m, c, h1, rfl, hm⟩
      | none =>
          rw [spec_link hl]
          have hcard := card_ups ((slots c).free * SIZEOF_DIRENT / BSIZE)
          have hunion := Finset.card_union_le T (leaf ((slots c).free * SIZEOF_DIRENT / BSIZE)).ups
          refine wp.mono (@dirlink_absent _ _ _ _ _ _ _ _
            (T ∪ (leaf ((slots c).free * SIZEOF_DIRENT / BSIZE)).ups) h.toTable hl hvalid.1 hvalid.2
            (fun y hy => Finset.mem_union_left _ (hm y hy))
            (fun y hy => Finset.mem_union_right _ (Node.mem_ups.2 hy))
            (fun hlt => hblocks (by omega)) hfull) ?_ fun _ he => he
          rintro _ s1 ⟨rfl, hk, hslots, m1, h1, hm1⟩
          exact ⟨rfl, _, by omega, hk.frame.inum, kept_ref hk, m1, _, h.written h1 hk, hslots, hm1⟩
  | unlink name =>
      -- `.` and `..` are refused
      by_cases hdots : namecmp name [DOT] = 0 ∨ namecmp name [DOT, DOT] = 0
      · rw [spec_unlink_refused fun hr => hr.1.2 hdots]
        show wp (Dir.unlink dp name) s _ E
        unfold Dir.unlink
        rw [if_pos hdots]
        exact (wp_pure ..).2 ⟨rfl, T, hle, hsame⟩
      · cases hl : (slots c).lookup (key name) with
        | none =>
            rw [spec_unlink_refused fun hr => hr.2 hl]
            show wp (Dir.unlink dp name) s _ E
            unfold Dir.unlink
            rw [if_neg hdots, wp_bind]
            refine dirlookup_wp h.toTable ?_ ?_ ?_
            · exact fun _ => (wp_pure ..).2 ⟨rfl, T, hle, hsame⟩
            · intro v j ip s1 hsome
              rw [hl] at hsome
              cases hsome
            · intro v j hsome
              rw [hl] at hsome
              cases hsome
        | some e =>
            rcases e with ⟨v, j⟩
            rw [spec_unlink ⟨rfl, hdots⟩ (by rw [hl]; exact nofun)]
            have hv : v ≠ (s.icache dp).inum := by
              rintro rfl
              exact hclear ⟨rfl, hdots⟩ j hl
            refine wp.mono (unlink_some h hdots hl hv hm (fun hlt => hblocks (by omega)) hinodes) ?_
              fun _ he => he
            rintro _ s1 ⟨rfl, hdir, hinum, href⟩
            exact ⟨rfl, T, hle, hinum, href, hdir⟩

/-- An operation adds one slot at most. -/
theorem length_spec_le (l : Slots (List UInt8) Nat) (op : Op) :
    (op.spec l).2.length ≤ l.length + 1 := by
  cases op with
  | link name inum =>
      by_cases hl : l.lookup (key name) = none
      · rw [spec_link hl]
        exact Slots.length_place_le ..
      · rw [spec_link_present hl]
        exact Nat.le_succ _
  | unlink name =>
      by_cases hr : (Op.unlink name).Removes (key name) ∧ l.lookup (key name) ≠ none
      · rw [spec_unlink hr.1 hr.2, Slots.length_remove]
        exact Nat.le_succ _
      · rw [spec_unlink_refused hr]
        exact Nat.le_succ _

/-- A run does what it does on the table. -/
theorem run_wp {T : Finset Node} (h : IsDir U s dp m c) (hvalid : ∀ op ∈ ops, op.Valid)
    (hclear : Clears (s.icache dp).inum (slots c) ops) (hm : ∀ y, m y ≠ 0 → y ∈ T)
    (hblocks : room U < T.card + 4 * ops.length → E (.panic "balloc: out of blocks"))
    (hinodes : (∀ j, 1 ≤ (s.icache j).ref) → E (.panic "iget: no inodes"))
    (hfull : MAXFILE * BSIZE < ((slots c).length + ops.length) * SIZEOF_DIRENT →
      E (.panic "dirlink")) :
    wp (run dp ops) s (fun rs s' => rs = (specs (slots c) ops).1 ∧
      ∃ T' : Finset Node, T'.card ≤ T.card + 4 * ops.length ∧
        After U dp s (specs (slots c) ops).2 T' s') E := by
  induction ops generalizing s m c T with
  | nil => exact (wp_pure ..).2 ⟨rfl, T, Nat.le_refl _, rfl, fun _ => rfl, m, c, h, rfl, hm⟩
  | cons op ops ih =>
      rw [List.length_cons] at hblocks hfull
      unfold run
      rw [wp_bind]
      -- the first operation, with room counted for the others
      refine wp.mono (call_wp h op (hvalid op List.mem_cons_self) hclear.1 hm ?_ hinodes ?_) ?_
        fun _ he => he
      · exact fun hlt => hblocks (by omega)
      · exact fun hlt => hfull (hlt.trans_le (Nat.mul_le_mul_right _ (by omega)))
      · rintro _ s1 ⟨rfl, T1, hT1, hinum, href, m1, c1, h1, hslots, hm1⟩
        -- the table grows by one slot at most, so the size suffices for the rest
        have hlen := length_spec_le (slots c) op
        rw [wp_bind]
        refine wp.mono (ih h1 (fun o ho => hvalid o (List.mem_cons_of_mem _ ho)) ?_ hm1 ?_ ?_ ?_) ?_
          fun _ he => he
        · rw [hinum, hslots]
          exact hclear.2
        · exact fun hlt => hblocks (by omega)
        · intro hall
          refine hinodes fun j => ?_
          rw [← href]
          exact hall j
        · intro hlt
          rw [hslots] at hlt
          exact hfull (hlt.trans_le (Nat.mul_le_mul_right _ (by omega)))
        · rintro _ s2 ⟨rfl, T2, hT2, h2⟩
          refine (wp_pure ..).2 ⟨?_, T2, ?_, h2.inum.trans hinum, fun j =>
            (h2.ref j).trans (href j), ?_⟩
          · rw [hslots]
            rfl
          · rw [List.length_cons]
            omega
          · rcases h2.dir with ⟨m2, c2, hd2, hs2, hm2⟩
            rw [hslots] at hs2
            exact ⟨m2, c2, hd2, hs2, hm2⟩

/-! ### A directory is a finite map -/

/-- `dp` is a directory with the bytes `c`: the file system is that of `mkfs`, the blocks
below the size are there and marked, and the caller has locked it and nothing else. -/
structure Directory (s : Kernel) (dp : Entry) (c : List UInt8) : Prop where
  sb : s.sb = sb
  super : ∀ b, b < nmeta → s.disk.used Mkfs.sb b = true
  bytes : ∃ m, Bytes s.disk (s.icache dp).din m c ∧
    ∀ x, m x ≠ 0 → s.disk.used Mkfs.sb (m x) = true
  inum : (s.icache dp).inum < Mkfs.sb.ninodes
  type : (s.icache dp).din.type = T_DIR
  whole : SIZEOF_DIRENT ∣ c.length
  ref : 1 ≤ (s.icache dp).ref
  locked : (s.icache dp).locked = true
  alone : ∀ j, j ≠ dp → (s.icache j).locked = false
  own : ∀ j, 1 ≤ (s.icache j).ref → (s.icache j).inum = (s.icache dp).inum → j = dp

/-- A directory in the state is one on disk. -/
theorem IsDir.directory (h : IsDir U s dp m c) : Directory s dp c where
  sb := h.bytes.mapped.sb
  super := fun b hb => (h.bytes.mapped.used b (Nat.lt_trans hb nmeta_lt_FSSIZE)).2
    (.inl (h.bytes.mapped.super b hb))
  bytes := ⟨m, h.bytes.bytes, fun x hx =>
    (h.bytes.mapped.used _ (h.bytes.bytes.tree.range x hx).2).2 (.inr ⟨x, hx, rfl⟩)⟩
  inum := h.bytes.inum
  type := h.type
  whole := h.whole
  ref := h.ref
  locked := h.locked
  alone := h.alone
  own := h.own

theorem card_le_room {S : Finset Nat} (h : ∀ b ∈ S, b < FSSIZE ∧ ¬ U b) : S.card ≤ room U := by
  classical
  unfold room
  refine Finset.card_le_card fun b hb => Finset.mem_filter.2 ?_
  exact ⟨Finset.mem_range.2 (h b hb).1, (h b hb).2⟩

/-- A tree has finitely many blocks. -/
theorem tree_finite {d : Disk} {din : Dinode} (h : Tree d din m) : {x : Node | m x ≠ 0}.Finite := by
  refine Set.Finite.of_finite_image (f := m) ((Set.finite_Iio FSSIZE).subset ?_) ?_
  · rintro _ ⟨x, hx, rfl⟩
    exact (h.range x hx).2
  · exact fun x hx y _ hxy => h.inj x y hx hxy

/-- The free blocks and those of the directory are what is left by the others. -/
theorem Directory.isDir (h : Directory s dp c) : ∃ U m, IsDir U s dp m c ∧
    ∃ T : Finset Node, (∀ y, m y ≠ 0 → y ∈ T) ∧ s.disk.nfree + T.card ≤ room U := by
  classical
  rcases h.bytes with ⟨m, hb, hused⟩
  have hfin := tree_finite hb.tree
  refine ⟨_, m, ⟨⟨⟨hb.tree.mapped h.sb h.super hused, hb, h.inum⟩, h.type, h.whole⟩, h.ref,
    h.locked,
    h.alone, h.own⟩, hfin.toFinset, fun y hy => hfin.mem_toFinset.2 hy, ?_⟩
  -- the blocks of the directory and the free ones are all its room
  have himage : hfin.toFinset.card = (hfin.toFinset.image m).card := by
    refine (Finset.card_image_of_injOn ?_).symm
    intro x hx y _ hxy
    exact hb.tree.inj x y (hfin.mem_toFinset.1 hx) hxy
  have hdisj : Disjoint ((Finset.range FSSIZE).filter fun b => s.disk.used Mkfs.sb b = false)
      (hfin.toFinset.image m) := by
    rw [Finset.disjoint_left]
    intro b hfree hmem
    rcases Finset.mem_image.1 hmem with ⟨x, hx, rfl⟩
    have hf := (Finset.mem_filter.1 hfree).2
    rw [hused x (hfin.mem_toFinset.1 hx)] at hf
    cases hf
  unfold Disk.nfree
  rw [himage, ← Finset.card_union_of_disjoint hdisj]
  refine card_le_room fun b hb' => ?_
  rcases Finset.mem_union.1 hb' with hfree | hmem
  · rcases Finset.mem_filter.1 hfree with ⟨hlt, hf⟩
    refine ⟨Finset.mem_range.1 hlt, fun hU => ?_⟩
    exact Bool.noConfusion (hf.symm.trans hU.1)
  · rcases Finset.mem_image.1 hmem with ⟨x, hx, rfl⟩
    have hx' := hfin.mem_toFinset.1 hx
    refine ⟨(hb.tree.range x hx').2, fun hU => ?_⟩
    exact hU.2 ⟨x, hx', rfl⟩

/-- Two entries that are not free and have equal names are one. -/
theorem Distinct.names (hd : (slots c).Distinct) {j : Nat} (hi : i < c.length / SIZEOF_DIRENT)
    (hj : j < c.length / SIZEOF_DIRENT) (hi0 : deInum (entry c i) ≠ 0)
    (hj0 : deInum (entry c j) ≠ 0)
    (heq : namecmp ((entry c i).drop 2) ((entry c j).drop 2) = 0) : i = j := by
  have hat : ∀ k, k < c.length / SIZEOF_DIRENT → deInum (entry c k) ≠ 0 →
      (slots c).At k (key ((entry c k).drop 2)) (deInum (entry c k)) := by
    intro k hk h0
    apply Slots.at_of_getD
    rw [slots_getD hk]
    unfold decode
    rw [if_neg h0]
  have hkey := (namecmp_eq_zero ..).1 heq
  exact hd i j _ _ _ (hat i hi hi0) (hkey ▸ hat j hj hj0)

/-- What the directory is after the calls `ops` on a table `l`. -/
structure Answers (s : Kernel) (dp : Entry) (l : Slots (List UInt8) Nat) (ops : List Op)
    (c : List UInt8) : Prop where
  dir : Directory s dp c
  table : slots c = (specs l ops).2
  /-- No two entries have equal names. -/
  distinct : ∀ i j, i < c.length / SIZEOF_DIRENT → j < c.length / SIZEOF_DIRENT →
    deInum (entry c i) ≠ 0 → deInum (entry c j) ≠ 0 →
    namecmp ((entry c i).drop 2) ((entry c j).drop 2) = 0 → i = j
  /-- A lookup returns what was linked last and not removed. -/
  lookup : ∀ name, wp (dirlookup dp name) s (fun r s' => s'.disk = s.disk ∧
      match r with
      | none => ∀ v i, ¬ Linked l ops (key name) v i
      | some (ip, off) => ∃ i, off = i * SIZEOF_DIRENT ∧
          Linked l ops (key name) (s'.icache ip).inum i)
    (Exhausted s c 0)
  /-- A link with a name that is there fails and changes nothing. -/
  present : ∀ name inum v i, Linked l ops (key name) v i → v ≠ (s.icache dp).inum →
    wp (dirlink dp name inum) s (fun r s' => r = false ∧ Directory s' dp c ∧ s'.disk = s.disk ∧
      s'.icache dp = s.icache dp) (Exhausted s c 0)
  /-- One with a name of the directory itself never returns. -/
  own : ∀ name inum i, Linked l ops (key name) (s.icache dp).inum i →
    wp (dirlink dp name inum) s (fun _ _ => False) fun e => e = .deadlock
  /-- Another link takes the first free entry, or appends one. -/
  absent : ∀ name inum, inum ≠ 0 → inum < 65536 → (∀ v i, ¬ Linked l ops (key name) v i) →
    wp (dirlink dp name inum) s (fun r s' => r = true ∧
      ∃ c', Directory s' dp c' ∧
        c' = splice c ((slots c).free * SIZEOF_DIRENT) (dirent inum name) ∧
        slots c' = (slots c).place (key name) inum) (Exhausted s c 1)

/-- A run returns what it returns on a table, and the directory answers as the table
does, unless a call comes to an entry for the directory itself. -/
theorem dir_is_map (h : Directory s dp c) (hd : (slots c).Distinct) (hvalid : ∀ op ∈ ops, op.Valid)
    (hclear : Clears (s.icache dp).inum (slots c) ops) :
    wp (run dp ops) s (fun rs s' => rs = (specs (slots c) ops).1 ∧
      ∃ c', Answers s' dp (slots c) ops c') (Exhausted s c ops.length) := by
  rcases h.isDir with ⟨U, m, hdir, T, hm, hroom⟩
  refine wp.mono (run_wp hdir hvalid hclear hm ?_ Exhausted.inodes ?_) ?_ fun _ he => he
  · exact fun hlt => .blocks (by omega)
  · intro hlt
    refine .size ?_
    rw [length_slots, Nat.add_mul, Nat.div_mul_cancel h.whole] at hlt
    exact hlt
  rintro _ s1 ⟨rfl, -, -, -, -, m1, c1, hd1, hslots, -⟩
  have hdist := specs_distinct hd ops
  -- what is found at the end is what was linked and not removed since
  have hlook : ∀ {name v i}, (slots c1).lookup (key name) = some (v, i) ↔
      Linked (slots c) ops (key name) v i := by
    intro name v i
    rw [hslots]
    exact lookup_specs hd ops (key name) v i
  refine ⟨rfl, c1, hd1.directory, hslots, ?_, ?_, ?_, ?_, ?_⟩
  · intro i j hi hj hi0 hj0
    exact Distinct.names (hslots ▸ hdist) hi hj hi0 hj0
  -- each clause: the names differ; the lookup; linking a present, a removed and a new name
  · intro name
    refine dirlookup_wp hd1.toTable ?_ ?_ fun _ _ _ hall => .inodes fun j => (hall j).1
    · intro hnone
      refine ⟨rfl, fun v i hl => ?_⟩
      rw [hlook.2 hl] at hnone
      cases hnone
    · intro v i ip s2 hl hg _
      have hdisk : s2.disk = s1.disk ∧ (s2.icache ip).inum = v := by
        cases hg with
        | found _ hinum he => exact ⟨by rw [he]; rfl, by rw [he.self]; exact hinum⟩
        | taken _ he => exact ⟨by rw [he]; rfl, by rw [he.self]⟩
      exact ⟨hdisk.1, i, rfl, by rw [hdisk.2]; exact hlook.1 hl⟩
  · intro name inum v i hl hv
    refine wp.mono (dirlink_present hd1 (hlook.2 hl) hv Exhausted.inodes) ?_ fun _ he => he
    rintro _ s2 ⟨rfl, h2, hdisk, hentry, -⟩
    exact ⟨rfl, h2.directory, hdisk, hentry⟩
  · intro name inum i hl
    exact dirlink_own hd1 (hlook.2 hl)
  · intro name inum h0 hlt hno
    have hnone : (slots c1).lookup (key name) = none := by
      cases hl : (slots c1).lookup (key name) with
      | none => rfl
      | some e => exact absurd (hlook.1 hl) (hno e.1 e.2)
    rcases hd1.directory.isDir with ⟨U', m', hdir', T', hm', hroom'⟩
    have hcard := card_ups ((slots c1).free * SIZEOF_DIRENT / BSIZE)
    have hunion := Finset.card_union_le T' (leaf ((slots c1).free * SIZEOF_DIRENT / BSIZE)).ups
    refine wp.mono (@dirlink_absent _ _ _ _ _ _ _ _
      (T' ∪ (leaf ((slots c1).free * SIZEOF_DIRENT / BSIZE)).ups) hdir'.toTable hnone h0 hlt
      (fun y hy => Finset.mem_union_left _ (hm' y hy))
      (fun y hy => Finset.mem_union_right _ (Node.mem_ups.2 hy))
      (fun hlt' => .blocks (by omega)) fun hlt' => ?_) ?_ fun _ he => he
    · refine .size ?_
      rw [length_slots, Nat.add_mul, Nat.div_mul_cancel hd1.whole] at hlt'
      exact hlt'
    · rintro _ s2 ⟨rfl, hk, hplace, m2, h2, -⟩
      exact ⟨rfl, _, (hdir'.written h2 hk).directory, rfl, hplace⟩

/-- A directory without entries, locked. -/
def freshDir : Kernel :=
  { fresh with icache := fun j =>
      if j = 0 then ⟨2, 1, true, true, Dinode.zero.setType T_DIR⟩ else ⟨0, 0, false, false, .zero⟩ }

/-- The fresh directory is empty. -/
theorem freshDir_directory : Directory freshDir 0 [] where
  sb := rfl
  super := by
    intro b hb
    refine (used_fresh _).trans ?_
    exact decide_eq_true hb
  bytes := by
    -- a fresh inode has no block
    have haddr : ∀ k, k < NDIRECT + 3 → (freshDir.icache 0).din.addr k = 0 := by
      intro k _
      show (Dinode.zero.setType T_DIR).addr k = 0
      rw [Dinode.addr_setType, Dinode.zero_addr]
    have hmeta : ∀ b, b < nmeta → freshDir.disk.used sb b = true := by
      intro b hb
      refine (used_fresh _).trans ?_
      exact decide_eq_true hb
    have htree := (@mapped_empty 0 freshDir rfl hmeta haddr).tree
    refine ⟨fun _ => 0, ⟨htree, ?_, Nat.zero_le _, nofun⟩, fun x hx => absurd rfl hx⟩
    exact (Dinode.size_setType _ _).trans Dinode.zero_size
  inum := by decide
  type := Dinode.type_setType _ _ (by decide)
  whole := Nat.dvd_zero _
  ref := Nat.le_refl 1
  locked := rfl
  alone := by
    intro j hj
    show (if j = 0 then _ else _ : Inode).locked = false
    rw [if_neg hj]
  own := by
    intro j hj _
    by_contra hne
    -- no other inode is in the cache
    have hzero : (freshDir.icache j).ref = 0 := by
      show (if j = 0 then _ else _ : Inode).ref = 0
      rw [if_neg hne]
    rw [hzero] at hj
    cases hj

/-- It has room for a thousand operations. -/
theorem freshDir_room {n : Nat} (hn : n < 1000) {e : Stop} :
    ¬ Exhausted freshDir [] n e := by
  intro he
  cases he with
  | blocks h =>
      have hfree : freshDir.disk.nfree = FSSIZE - nmeta := nfree_fresh
      rw [hfree] at h
      have hbig : 4000 ≤ FSSIZE - nmeta := by decide
      omega
  | inodes h => exact absurd (h 1) (by decide)
  | size h =>
      have hbig : 16000 ≤ MAXFILE * BSIZE := by decide
      have hlen : MAXFILE * BSIZE < 0 + n * 16 := h
      omega

/-- A name of `DIRSIZ` bytes is linked, found to be there under a longer one, and
removed. -/
theorem dir_is_map_fresh :
    Ends (run 0 [.link (List.replicate 14 97) 5, .link (List.replicate 15 97) 6,
      .unlink (List.replicate 14 97), .link [98] 7]) freshDir
      fun rs s => rs = [true, false, true, true] ∧ ∃ c, Answers s 0 []
        [.link (List.replicate 14 97) 5, .link (List.replicate 15 97) 6,
          .unlink (List.replicate 14 97), .link [98] 7] c := by
  refine wp.mono (@dir_is_map [] freshDir 0 [.link (List.replicate 14 97) 5,
    .link (List.replicate 15 97) 6, .unlink (List.replicate 14 97), .link [98] 7]
    freshDir_directory nofun ?_ ?_) ?_ fun e he => freshDir_room (by decide) he
  · intro op hop
    simp only [List.mem_cons, List.not_mem_nil, or_false] at hop
    rcases hop with rfl | rfl | rfl | rfl
    · exact ⟨by decide, by decide⟩
    · exact ⟨by decide, by decide⟩
    · trivial
    · exact ⟨by decide, by decide⟩
  · refine ⟨?_, ?_, ?_, ?_, trivial⟩
    · exact nofun
    · intro i h
      exact absurd (show _ = some 2 from congrArg (Option.map Prod.fst) h) (by decide)
    · intro _ i h
      exact absurd (show _ = some 2 from congrArg (Option.map Prod.fst) h) (by decide)
    · exact nofun
  · rintro rs s1 ⟨hrs, h⟩
    exact ⟨hrs.trans (by decide), h⟩

/-- The name that is linked twice is the directory's own: the second link locks the
directory again. -/
theorem dirlink_dot : Directory freshDir 0 [] ∧ (slots []).Distinct ∧
    (∀ op ∈ [Op.link [DOT] 2, .link [DOT] 5], op.Valid) ∧
    wp (run 0 [.link [DOT] 2, .link [DOT] 5]) freshDir (fun _ _ => False) fun e =>
      e = .deadlock := by
  refine ⟨freshDir_directory, nofun, ?_, ?_⟩
  · intro op hop
    simp only [List.mem_cons, List.not_mem_nil, or_false] at hop
    rcases hop with rfl | rfl
    · exact ⟨by decide, by decide⟩
    · exact ⟨by decide, by decide⟩
  · rcases freshDir_directory.isDir with ⟨U, m, hdir, T, hm, hroom⟩
    unfold run
    rw [wp_bind]
    refine wp.mono (call_wp hdir (.link [DOT] 2) ⟨by decide, by decide⟩ nofun hm ?_ ?_ ?_) ?_
      fun _ he => he
    · intro hlt
      exact absurd (.blocks (by omega)) (@freshDir_room 1 (by decide)
        (.panic "balloc: out of blocks"))
    · intro hall
      exact absurd (.inodes hall) (@freshDir_room 1 (by decide) (.panic "iget: no inodes"))
    · intro hlt
      exact absurd (.size hlt) (@freshDir_room 1 (by decide) (.panic "dirlink"))
    · rintro _ s1 ⟨-, T1, -, hinum, -, m1, c1, h1, hslots, -⟩
      have hl : (slots c1).lookup (key [DOT]) = some ((s1.icache 0).inum, 0) := by
        rw [hslots, hinum]
        decide
      unfold run
      rw [wp_bind, wp_bind]
      exact wp.mono (dirlink_own h1 hl) (fun _ _ hf => hf.elim) fun _ he => he

end Dir

end Xv6.Fs
