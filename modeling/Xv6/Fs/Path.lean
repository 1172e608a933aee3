import Mathlib.Data.List.TakeWhile
import Xv6.Fs.Dir

/-!
# Path names

`skipelem` and the loop of `namex` as they stand, on a pointer into the path and an
array of `DIRSIZ` bytes that the elements are copied to one over the other. What
`namex` and `elems` say in one line is what this loop does.

* `skipelem_elems`: one call of `skipelem` takes the first element, cut to
  `DIRSIZ` bytes, and leaves the others;
* `namex_skipelem`: the loop does to the file system and returns what the walk over
  the elements does, whatever the array holds at first.

An element of `DIRSIZ` bytes has no terminator in the array, and what is behind a
shorter one stays from the element before; the proof follows both.
-/

namespace Xv6.Fs

open Xv6.Lib Prog

namespace Path

/-! ## The code

A path is the list of its bytes in front of the terminator; the array `name` keeps
what an earlier element has left behind a shorter one. -/

/-- `memmove(name, s, len)`. -/
def copy (name s : List UInt8) (len : Nat) : List UInt8 := s.take len ++ name.drop len

/-- Copy the next path element into `name`. Return the path with that element and the
slashes around it removed, or nothing if there is no name to remove. -/
def skipelem (path name : List UInt8) : Option (List UInt8 × List UInt8) :=
  let path := path.dropWhile (· = SLASH)
  if path = [] then none
  else
    let s := path
    let path := path.dropWhile (· ≠ SLASH)
    let len := s.length - path.length
    let name := if len ≥ DIRSIZ then copy name s DIRSIZ else (copy name s len).set len 0
    some (path.dropWhile (· = SLASH), name)

/-- `skipelem` shortens the path. -/
theorem skipelem_lt {path name : List UInt8} {x : List UInt8 × List UInt8}
    (h : skipelem path name = some x) : x.1.length < path.length := by
  unfold skipelem at h
  dsimp only at h
  cases hp : path.dropWhile (· = SLASH) with
  | nil =>
      rw [hp] at h
      cases h
  | cons c s =>
      rw [hp] at h
      cases h
      have hc : c ≠ SLASH := by
        have := List.head_dropWhile_not (fun c => decide (c = SLASH)) (l := path) (by rw [hp]; simp)
        simpa [hp] using this
      have h1 := (List.dropWhile_sublist (fun c => decide (c = SLASH)) (l := path)).length_le
      have h2 := (List.dropWhile_sublist (fun c => decide (c ≠ SLASH)) (l := s)).length_le
      have h3 := (List.dropWhile_sublist (fun c => decide (c = SLASH))
        (l := s.dropWhile (· ≠ SLASH))).length_le
      rw [hp, List.length_cons] at h1
      rw [List.dropWhile_cons_of_pos (by simpa using hc)]
      dsimp only
      omega

/-- The loop of `namex`; of `name` its callers read what is in front of a terminator. -/
def namexFrom (parent : Bool) (ip : Entry) (path name : List UInt8) :
    FM (Option (Entry × List UInt8)) :=
  match _h : skipelem path name with
  | none => do
      if parent = true then
        iput ip
        return none
      return some (ip, [])
  | some x => do
      ilock ip
      let s ← get
      if (s.icache ip).din.type ≠ T_DIR then
        iunlockput ip
        return none
      if parent = true ∧ x.1 = [] then
        iunlock ip
        return some (ip, Dir.key x.2)
      match ← dirlookup ip (Dir.key x.2) with
      | none => do
          iunlockput ip
          return none
      | some (next, _) => do
          iunlockput ip
          namexFrom parent next x.1 x.2
termination_by path.length
decreasing_by exact skipelem_lt _h

/-! ## The elements of a path -/

theorem elems_nil : elems [] = [] := rfl

theorem elems_slash (path : List UInt8) : elems (SLASH :: path) = elems path := by
  unfold elems List.splitOn
  rw [List.splitOnP_cons_eq_if_modifyHead, if_pos (by simp)]
  simp

/-- Leading slashes are no elements. -/
theorem elems_skip (path : List UInt8) : elems (path.dropWhile (· = SLASH)) = elems path := by
  induction path with
  | nil => rfl
  | cons c path ih =>
      by_cases hc : c = SLASH
      · subst hc
        rw [elems_slash, List.dropWhile_cons, if_pos (by simp), ih]
      · rw [List.dropWhile_cons, if_neg (by simpa using hc)]

/-- A path that starts with an element. -/
theorem elems_word {w path : List UInt8} (hw : w ≠ []) (hs : SLASH ∉ w) :
    elems (w ++ SLASH :: path) = w.take DIRSIZ :: elems path := by
  have hfree : ∀ c ∈ w, (c == SLASH) = false := by
    intro c hc
    simp only [beq_eq_false_iff_ne]
    rintro rfl
    exact hs hc
  unfold elems List.splitOn
  rw [List.splitOnP_append_cons _ _ (by simp), List.splitOnP_eq_singleton hfree]
  simp [hw]

/-- A path of one element. -/
theorem elems_single {w : List UInt8} (hw : w ≠ []) (hs : SLASH ∉ w) :
    elems w = [w.take DIRSIZ] := by
  have hfree : ∀ c ∈ w, (c == SLASH) = false := by
    intro c hc
    simp only [beq_eq_false_iff_ne]
    rintro rfl
    exact hs hc
  unfold elems List.splitOn
  rw [List.splitOnP_eq_singleton hfree]
  simp [hw]

/-- A string without a zero byte is its own C string. -/
theorem cstr_whole {v : List UInt8} (hv : 0 ∉ v) : cstr v = v := by
  refine List.takeWhile_eq_self_iff.2 ?_
  intro c hc
  simp only [ne_eq, decide_eq_true_eq]
  rintro rfl
  exact hv hc

/-- A C string ends at its zero byte. -/
theorem cstr_terminated {v r : List UInt8} (hv : 0 ∉ v) : cstr (v ++ 0 :: r) = v := by
  have hpos : ∀ c ∈ v, decide (c ≠ 0) = true := by
    intro c hc
    simp only [ne_eq, decide_eq_true_eq]
    rintro rfl
    exact hv hc
  unfold cstr
  rw [List.takeWhile_append_of_pos hpos, List.takeWhile_cons_of_neg (by simp), List.append_nil]

/-- What the array holds after an element has been copied. -/
theorem key_copy {w q name : List UInt8} (h0 : 0 ∉ w) (hname : name.length = DIRSIZ) :
    ∃ name', (if w.length ≥ DIRSIZ then copy name (w ++ q) DIRSIZ
        else (copy name (w ++ q) w.length).set w.length 0) = name' ∧
      name'.length = DIRSIZ ∧ Dir.key name' = w.take DIRSIZ := by
  refine ⟨_, rfl, ?_⟩
  by_cases hge : w.length ≥ DIRSIZ
  · -- as many bytes as the array takes, without a terminator
    have hcopy : copy name (w ++ q) DIRSIZ = w.take DIRSIZ := by
      unfold copy
      rw [List.drop_eq_nil_of_le (le_of_eq hname), List.append_nil,
        List.take_append_of_le_length hge]
    rw [if_pos hge, hcopy]
    constructor
    · rw [List.length_take, Nat.min_eq_left hge]
    · unfold Dir.key
      rw [List.take_take, Nat.min_self]
      exact cstr_whole fun h => h0 (List.mem_of_mem_take h)
  · -- the terminator ends what is read, whatever lies behind it
    have hlt : w.length < DIRSIZ := Nat.lt_of_not_le hge
    have hcons : ∃ c, name.drop w.length = c :: name.drop (w.length + 1) :=
      ⟨_, List.drop_eq_getElem_cons (by omega)⟩
    rcases hcons with ⟨c, hc⟩
    have hset : (copy name (w ++ q) w.length).set w.length 0 =
        w ++ 0 :: name.drop (w.length + 1) := by
      unfold copy
      rw [List.take_left, hc, List.set_append_right _ _ (le_refl _), Nat.sub_self,
        List.set_cons_zero]
    have hlen : (w ++ 0 :: name.drop (w.length + 1)).length = DIRSIZ := by
      rw [List.length_append, List.length_cons, List.length_drop, hname]
      omega
    rw [if_neg hge, hset]
    refine ⟨hlen, ?_⟩
    unfold Dir.key
    rw [List.take_of_length_le (le_of_eq hlen), cstr_terminated h0,
      List.take_of_length_le (le_of_lt hlt)]

/-- The first element, when no slash is in front of it. -/
theorem elems_head {c : UInt8} {p : List UInt8} (hc : c ≠ SLASH) :
    elems (c :: p) = ((c :: p).takeWhile (· ≠ SLASH)).take DIRSIZ ::
      elems ((c :: p).dropWhile (· ≠ SLASH)) := by
  have hw : (c :: p).takeWhile (· ≠ SLASH) ≠ [] := by
    rw [List.takeWhile_cons_of_pos (by simpa using hc)]
    simp
  have hs : SLASH ∉ (c :: p).takeWhile (· ≠ SLASH) := by
    intro h
    have := List.mem_takeWhile_imp h
    simp at this
  have hsplit := List.takeWhile_append_dropWhile (p := fun x => decide (x ≠ SLASH)) (l := c :: p)
  generalize hwe : (c :: p).takeWhile (· ≠ SLASH) = w at *
  cases hq : (c :: p).dropWhile (· ≠ SLASH) with
  | nil =>
      rw [hq, List.append_nil] at hsplit
      rw [← hsplit, elems_single hw hs]
      rfl
  | cons d q =>
      have hd : d = SLASH := by
        have := List.head_dropWhile_not (fun x => decide (x ≠ SLASH)) (l := c :: p)
          (by rw [hq]; simp)
        simp only [hq, List.head_cons] at this
        simpa using this
      rw [hq] at hsplit
      rw [← hsplit, hd, elems_word hw hs, elems_slash]

/-- A path without slashes in front is empty if it has no element. -/
theorem eq_nil_of_elems {path : List UInt8} (h : elems (path.dropWhile (· = SLASH)) = []) :
    path.dropWhile (· = SLASH) = [] := by
  cases hp : path.dropWhile (· = SLASH) with
  | nil => rfl
  | cons c p =>
      have hc : c ≠ SLASH := by
        have := List.head_dropWhile_not (fun x => decide (x = SLASH)) (l := path)
          (by rw [hp]; simp)
        simpa [hp] using this
      rw [hp, elems_head hc] at h
      cases h

/-- `skipelem` takes the first element off, and leaves an empty path after the last. -/
theorem skipelem_elems {path name : List UInt8} (h0 : 0 ∉ path) (hname : name.length = DIRSIZ) :
    skipelem path name = none ∧ elems path = [] ∨
      ∃ rest name', skipelem path name = some (rest, name') ∧
        elems path = Dir.key name' :: elems rest ∧ (rest = [] ↔ elems rest = []) ∧ 0 ∉ rest ∧
          name'.length = DIRSIZ := by
  unfold skipelem
  dsimp only
  cases hp : path.dropWhile (· = SLASH) with
  -- nothing but slashes
  | nil =>
      refine .inl ⟨rfl, ?_⟩
      rw [← elems_skip, hp]
      rfl
  | cons c p =>
      have hc : c ≠ SLASH := by
        have := List.head_dropWhile_not (fun x => decide (x = SLASH)) (l := path)
          (by rw [hp]; simp)
        simpa [hp] using this
      have h0p : 0 ∉ c :: p := fun h => h0 ((List.dropWhile_sublist _).mem (hp ▸ h))
      -- the element up to the next slash, and what is behind it
      have hsplit := List.takeWhile_append_dropWhile (p := fun x => decide (x ≠ SLASH))
        (l := c :: p)
      have h0w : 0 ∉ (c :: p).takeWhile (· ≠ SLASH) :=
        fun h => h0p ((List.takeWhile_sublist _).mem h)
      have h0q : 0 ∉ (c :: p).dropWhile (· ≠ SLASH) :=
        fun h => h0p ((List.dropWhile_sublist _).mem h)
      have helems := elems_head (p := p) hc
      rw [← elems_skip path, hp, helems, if_neg (by simp)]
      generalize (c :: p).takeWhile (· ≠ SLASH) = w at *
      generalize (c :: p).dropWhile (· ≠ SLASH) = q at *
      rw [← hsplit]
      have hlen : (w ++ q).length - q.length = w.length := by
        rw [List.length_append, Nat.add_sub_cancel]
      rw [hlen]
      rcases key_copy (q := q) h0w hname with ⟨name', hcopy, hlen', hkey⟩
      rw [hcopy]
      refine .inr ⟨_, _, rfl, ?_, ?_, ?_, hlen'⟩
      -- the rest without its leading slashes
      · rw [hkey, elems_skip]
      · constructor
        · intro h
          rw [h]
          rfl
        · exact eq_nil_of_elems
      · exact fun h => h0q ((List.dropWhile_sublist _).mem h)

/-! ## The walk -/

/-- The loop over the pointer is the walk over the elements. -/
theorem namexFrom_walk {path name : List UInt8} (parent : Bool) (ip : Entry) (h0 : 0 ∉ path)
    (hname : name.length = DIRSIZ) :
    namexFrom parent ip path name = walk parent ip (elems path) := by
  -- on the length of the path, which each element shortens
  induction hk : path.length using Nat.strong_induction_on generalizing path name ip with
  | _ k ih =>
      rw [namexFrom]
      rcases skipelem_elems h0 hname with ⟨hnone, hnil⟩ |
        ⟨rest, name', hsome, hcons, hend, h0', hname'⟩
      · rw [hnil]
        split
        · rfl
        · next x hx => cases hnone.symm.trans hx
      · rw [hcons]
        split
        · next hx => cases hsome.symm.trans hx
        · next x hx =>
            cases hsome.symm.trans hx
            have hlt : rest.length < k := hk ▸ skipelem_lt hsome
            unfold walk
            simp only [hend]
            refine congrArg (fun f => ilock ip >>= f) (funext fun _ => ?_)
            refine congrArg (fun f => get >>= f) (funext fun s => ?_)
            split
            · rfl
            · split
              · rfl
              · refine congrArg (fun f => dirlookup ip (Dir.key name') >>= f) (funext fun r => ?_)
                cases r with
                | none => rfl
                | some y =>
                    refine congrArg (fun f => iunlockput ip >>= f) (funext fun _ => ?_)
                    exact ih rest.length hlt y.1 h0' hname' rfl

/-- Names joined by slashes come apart again, cut to the length that a directory keeps. -/
theorem elems_join (names : List (List UInt8)) (h : ∀ w ∈ names, w ≠ [] ∧ SLASH ∉ w) :
    elems (names.flatMap (SLASH :: ·)) = names.map (List.take DIRSIZ) := by
  induction names with
  | nil => rfl
  | cons w names ih =>
      rw [List.forall_mem_cons] at h
      have ih := ih h.2
      rw [List.flatMap_cons, List.cons_append, elems_slash, List.map_cons, ← ih]
      cases names with
      | nil => rw [List.flatMap_nil, List.append_nil, elems_single h.1.1 h.1.2, elems_nil]
      | cons v names =>
          rw [List.flatMap_cons, List.cons_append, elems_word h.1.1 h.1.2, elems_slash]

end Path

/-- `namex` with its pointer and its array, from whatever the array holds, does to the file
system and returns what the walk over the elements of the path does. -/
theorem namex_skipelem (p : Fin NPROC) (path name : List UInt8) (parent : Bool) (h0 : 0 ∉ path)
    (hname : name.length = DIRSIZ) :
    (do
      let ip ← startInode p path
      Path.namexFrom parent ip path name) = namex p path parent :=
  congrArg (fun f => startInode p path >>= f)
    (funext fun ip => Path.namexFrom_walk parent ip h0 hname)

/-- `//a/bb/`, and an array with no terminator in it. -/
theorem namex_skipelem_two :
    (do
      let ip ← startInode 0 [47, 47, 97, 47, 98, 98, 47]
      Path.namexFrom true ip [47, 47, 97, 47, 98, 98, 47] (List.replicate DIRSIZ 120)) =
        namex 0 [47, 47, 97, 47, 98, 98, 47] true :=
  namex_skipelem 0 _ _ true (by simp) (by simp)

end Xv6.Fs
