/-
# `defer/hazptr.c`: `hazptr_scan`

A thread collects the nodes it retired and frees those that no hazard pointer
points to: it copies the non-`NULL` hazard pointers, less their lowest bit,
sorts them with `qsort`, and looks each retired node up with `bsearch`. Both are
given `compare`, the difference of the two pointers, as an `int`.

A difference of pointers is in units of `sizeof(hazptr_head_t)`, which is 8, and
the `int` has the lower 32 bits of it, so the result depends on the addresses
modulo `2 ^ 35` only (`compare_eq`), and its sign tells on which half of that
circle the one is, seen from the other. It is a total order of some pointers iff
they fit into half the circle, 8 bytes apart (`orders_iff`). Exactly then
`hazptr_scan` does what it is for, with every C library that does as its manual
says (`scan_exact_iff`).

Key definitions: `compare`, `hazards`, `hazptrScan`, `InWindow`, `Exact`.
Key theorems: `orders_iff`, `scan_exact_iff`, `scan_keeps_free_node`.
-/
import Mathlib.Algebra.Group.Int.Defs
import Mathlib.Algebra.Group.Nat.Defs
import Mathlib.Data.Fintype.Basic
import Mathlib.Data.List.Nodup
import Perfbook.CLib.Sort

namespace Perfbook
namespace Hazptr

open CLib

/-- `uintptr_t`, and the pointers. -/
abbrev Word := BitVec 64

/-- `K`, the hazard pointers of a thread. -/
def K : ℕ := 2

/-- `H`, the hazard pointers of `n` threads (`NR_THREADS`). -/
def H (n : ℕ) : ℕ := K * n

/-- `R`, the number of retired nodes that starts a scan. -/
def R (n : ℕ) : ℕ := 100 + 2 * H n

/-- `compare`: the difference of the pointers, in units of 8 bytes, as an `int`. -/
def compare (a b : Word) : ℤ := ((a - b).toInt / 8).bmod (2 ^ 32)

/-- What a thread has: the list of its retired nodes and their number; and the
calls of `hazptr_free` so far. -/
structure St where
  rlist : List Word
  rcount : ℕ
  freed : List Word

variable {n : ℕ}

/-- Stage 1: the non-`NULL` hazard pointers, less the tag. -/
def plist : List Word → List Word
  | [] => []
  | hp :: l => if hp = 0 then plist l else (hp &&& ~~~1) :: plist l

/-- The pointers that are hazardous. -/
def hazards (hps : Fin (H n) → Word) : List Word := plist (List.ofFn hps)

/-- Stage 3: each node of `tmplist` is kept if `bsearch` finds it, and freed otherwise. -/
def scanLoop (lib : Lib Word) (pl : List Word) : List Word → St → St
  | [], s => s
  | cur :: tmplist, s =>
    if lib.bsearch compare cur pl then
      scanLoop lib pl tmplist { s with rlist := cur :: s.rlist, rcount := s.rcount + 1 }
    else scanLoop lib pl tmplist { s with freed := s.freed ++ [cur] }

def hazptrScan (lib : Lib Word) (hps : Fin (H n) → Word) (s : St) : St :=
  scanLoop lib (lib.qsort compare (hazards hps)) s.rlist { s with rlist := [], rcount := 0 }

def hazptrFreeLater (lib : Lib Word) (hps : Fin (H n) → Word) (x : Word) (s : St) : St :=
  let s' := { s with rlist := x :: s.rlist, rcount := s.rcount + 1 }
  if R n ≤ s'.rcount then hazptrScan lib hps s' else s'

/-! ### The comparison -/

/-- How far `a` is above `b` on a circle of `2 ^ 35` bytes. -/
def above (a b : Word) : ℕ := (a - b).toNat % 2 ^ 35

theorem above_lt (a b : Word) : above a b < 2 ^ 35 := Nat.mod_lt _ (by decide)

/-- The lower 32 bits of the difference in units. -/
theorem units_eq (a b : Word) : (a - b).toInt / 8 % 2 ^ 32 = (above a b : ℤ) / 8 := by
  have hint := BitVec.toInt_eq_toNat_cond (a - b)
  have hemod : (a - b).toInt % 2 ^ 35 = above a b := by
    unfold above
    split at hint <;> omega
  omega

theorem compare_eq (a b : Word) : compare a b =
    if above a b < 2 ^ 34 then (above a b : ℤ) / 8 else (above a b : ℤ) / 8 - 2 ^ 32 := by
  have hu := units_eq a b
  have hlt := above_lt a b
  rw [compare, Int.bmod_def, show ((2 ^ 32 : ℕ) : ℤ) = 2 ^ 32 by rfl, hu]
  split <;> split <;> omega

theorem above_self (a : Word) : above a a = 0 := by
  rw [above, BitVec.sub_self]
  rfl

/-- Seen from `w`, the pointer between. -/
theorem above_sub (a b w : Word) : above a b = (above a w + (2 ^ 35 - above b w)) % 2 ^ 35 := by
  have ha := a.isLt
  have hb := b.isLt
  have hw := w.isLt
  unfold above
  rw [BitVec.toNat_sub, BitVec.toNat_sub, BitVec.toNat_sub]
  omega

theorem compare_zero {a b : Word} : compare a b = 0 ↔ above a b < 8 := by
  have := above_lt a b
  rw [compare_eq]
  split <;> omega

theorem compare_neg {a b : Word} : compare a b < 0 ↔ 2 ^ 34 ≤ above a b := by
  have := above_lt a b
  rw [compare_eq]
  split <;> omega

theorem compare_pos {a b : Word} : 0 < compare a b ↔ 8 ≤ above a b ∧ above a b < 2 ^ 34 := by
  have := above_lt a b
  rw [compare_eq]
  split <;> omega

/-- The pointers are less than `2 ^ 34` bytes above one of them, and any two of
them 8 bytes apart, modulo `2 ^ 35`. -/
def InWindow (l : List Word) : Prop :=
  (∃ w ∈ l, ∀ x ∈ l, above x w < 2 ^ 34) ∧ ∀ x ∈ l, ∀ y ∈ l, x ≠ y → 8 ≤ above x y

/-- **When `compare` is a total order.** -/
theorem orders_iff {l : List Word} (hl : l ≠ []) : Orders compare l ↔ InWindow l := by
  constructor
  · intro h
    refine ⟨?_, fun x hx y hy hxy => ?_⟩
    · obtain ⟨w, hw, hmin⟩ := h.exists_min hl
      refine ⟨w, hw, fun x hx => ?_⟩
      rcases hmin x hx with rfl | hlt
      · rw [above_self]
        decide
      · exact (compare_pos.mp ((h.anti w hw x hx).mp hlt)).2
    · have := (h.zero x hx y hy).not.mpr hxy
      rw [compare_zero] at this
      omega
  · rintro ⟨⟨w, hw, hwin⟩, hfar⟩
    have hsub : ∀ x ∈ l, ∀ y ∈ l, (compare x y < 0 ↔ above x w < above y w) := by
      intro x hx y hy
      have h₁ := hwin x hx
      have h₂ := hwin y hy
      rw [compare_neg, above_sub x y w]
      omega
    have hne : ∀ x ∈ l, ∀ y ∈ l, x ≠ y → above x w ≠ above y w := by
      intro x hx y hy hxy heq
      have := hfar x hx y hy hxy
      rw [above_sub x y w, heq] at this
      have := hwin y hy
      omega
    refine ⟨fun x hx y hy => ⟨fun h0 => ?_, ?_⟩, fun x hx y hy => ⟨fun hlt => ?_, fun hpos => ?_⟩, ?_⟩
    · by_contra hxy
      exact absurd (compare_zero.mp h0) (not_lt.mpr (hfar x hx y hy hxy))
    · rintro rfl
      rw [compare_zero, above_self]
      decide
    · have hlt' := (hsub x hx y hy).mp hlt
      have hyx : y ≠ x := by
        rintro rfl
        exact lt_irrefl _ hlt'
      have h₂ := hwin y hy
      refine compare_pos.mpr ⟨hfar y hy x hx hyx, ?_⟩
      rw [above_sub y x w]
      omega
    · have hyx : y ≠ x := by
        rintro rfl
        rw [compare_pos, above_self] at hpos
        omega
      have hnot : ¬ compare y x < 0 := by omega
      rw [hsub y hy x hx] at hnot
      rw [hsub x hx y hy]
      have := hne y hy x hx hyx
      omega
    · intro x hx y hy z hz hxy hyz
      rw [hsub x hx y hy] at hxy
      rw [hsub y hy z hz] at hyz
      exact (hsub x hx z hz).mpr (hxy.trans hyz)

/-! ### The scan -/

variable {lib : Lib Word} {hps : Fin (H n) → Word} {s : St} {cur : Word}

/-- What the loop of stage 3 makes of the retired nodes. -/
theorem scanLoop_eq (pl : List Word) : ∀ (tmplist : List Word) (s : St),
    scanLoop lib pl tmplist s =
      { rlist := (tmplist.filter fun x => lib.bsearch compare x pl).reverse ++ s.rlist
        rcount := s.rcount + (tmplist.filter fun x => lib.bsearch compare x pl).length
        freed := s.freed ++ tmplist.filter fun x => !lib.bsearch compare x pl }
  | [], s => by simp [scanLoop]
  | cur :: tmplist, s => by
    unfold scanLoop
    split
    · rename_i hb
      rw [scanLoop_eq pl tmplist]
      simp only [List.filter_cons, hb, if_true, List.reverse_cons, List.append_assoc,
        List.singleton_append, List.length_cons, Bool.not_true, Bool.false_eq_true, if_false,
        St.mk.injEq, true_and, and_true]
      omega
    · rename_i hb
      rw [Bool.not_eq_true] at hb
      rw [scanLoop_eq pl tmplist]
      simp [hb]

theorem plist_length : ∀ l : List Word, (plist l).length ≤ l.length
  | [] => Nat.le_refl _
  | hp :: l => by
    unfold plist
    have := plist_length l
    split
    · rw [List.length_cons]
      omega
    · rw [List.length_cons, List.length_cons]
      omega

theorem hazards_length : (hazards hps).length ≤ H n := by
  have := plist_length (List.ofFn hps)
  rwa [List.length_ofFn] at this

/-- What a scan of the retired nodes of `s` has to do: free each node that is
not hazardous, once, and keep the others. -/
structure Exact (hps : Fin (H n) → Word) (s s' : St) : Prop where
  freed : ∃ fs, s'.freed = s.freed ++ fs ∧ fs.Nodup ∧
    ∀ x, x ∈ fs ↔ x ∈ s.rlist ∧ x ∉ hazards hps
  nodup : s'.rlist.Nodup
  kept : ∀ x, x ∈ s'.rlist ↔ x ∈ s.rlist ∧ x ∈ hazards hps
  count : s'.rcount = s'.rlist.length
  bound : s'.rlist.length ≤ H n
  /-- what is left does not start the next scan -/
  below : s'.rcount < R n

/-- If `bsearch` finds the hazardous nodes, the scan is right. -/
theorem exact_of_search (hnd : s.rlist.Nodup) (hs : ∀ x ∈ s.rlist,
      (lib.bsearch compare x (lib.qsort compare (hazards hps)) = true ↔ x ∈ hazards hps)) :
    Exact hps s (hazptrScan lib hps s) := by
  set found := fun x => lib.bsearch compare x (lib.qsort compare (hazards hps)) with hfound
  have heq : hazptrScan lib hps s =
      { rlist := (s.rlist.filter found).reverse ++ []
        rcount := 0 + (s.rlist.filter found).length
        freed := s.freed ++ s.rlist.filter fun x => !found x } := scanLoop_eq _ _ _
  have hkept : ∀ x, x ∈ (hazptrScan lib hps s).rlist ↔ x ∈ s.rlist ∧ x ∈ hazards hps := by
    intro x
    rw [heq]
    simp only [List.append_nil, List.mem_reverse, List.mem_filter]
    exact and_congr_right fun hx => hs x hx
  have hnodup : (hazptrScan lib hps s).rlist.Nodup := by
    rw [heq, List.append_nil, List.nodup_reverse]
    exact hnd.filter _
  have hbound : (hazptrScan lib hps s).rlist.length ≤ H n :=
    ((hnodup.subperm fun x hx => ((hkept x).mp hx).2).length_le).trans hazards_length
  have hcount : (hazptrScan lib hps s).rcount = (hazptrScan lib hps s).rlist.length := by
    rw [heq]
    simp
  refine ⟨⟨s.rlist.filter fun x => !found x, by rw [heq], hnd.filter _, fun x => ?_⟩, hnodup, hkept,
    hcount, hbound, ?_⟩
  · simp only [List.mem_filter, Bool.not_eq_true', ← Bool.not_eq_true]
    exact and_congr_right fun hx => (hs x hx).not
  · rw [hcount, R]
    omega

/-- A library as its manual says finds a node if it is hazardous, when
`compare` orders it and the hazardous pointers. -/
theorem search_iff (hlib : lib.Documented) (ho : Orders compare (cur :: hazards hps)) :
    lib.bsearch compare cur (lib.qsort compare (hazards hps)) = true ↔ cur ∈ hazards hps := by
  have hsub : Orders compare (hazards hps) := ho.subset fun x => List.mem_cons_of_mem cur
  have hperm := hlib.perm compare _ hsub
  have hsub' : Orders compare (cur :: lib.qsort compare (hazards hps)) :=
    ho.subset fun x hx => List.mem_cons.mpr ((List.mem_cons.mp hx).imp id hperm.mem_iff.mp)
  rw [hlib.found compare cur _ hsub' (hlib.sorted compare _ hsub)]
  constructor
  · rintro ⟨x, hx, h0⟩
    have hx' := hperm.mem_iff.mp hx
    rwa [(ho.zero cur List.mem_cons_self x (List.mem_cons_of_mem _ hx')).mp h0]
  · intro hx
    exact ⟨cur, hperm.mem_iff.mpr hx,
      (ho.zero cur List.mem_cons_self cur List.mem_cons_self).mpr rfl⟩

open Classical in
/-- A library that does as its manual says, and is wrong elsewhere. -/
noncomputable def contraryLib : Lib Word where
  qsort := sortBy
  bsearch cmp k l := if Orders cmp (k :: l) then l.any fun x => cmp k x = 0 else k ∉ l

theorem contraryLib_documented : contraryLib.Documented where
  perm _ _ _ := sortBy_perm _
  sorted _ _ h := sortBy_sorted h
  found cmp k l ho _ := by simp [contraryLib, ho]

/-- **When `hazptr_scan` is right**: it frees exactly the retired nodes that are
not hazardous, with every library that does as its manual says, iff `compare`
has a consistent view of each retired node and the hazard pointers. -/
theorem scan_exact_iff (hps : Fin (H n) → Word) (s : St) (hnd : s.rlist.Nodup) :
    (∀ lib : Lib Word, lib.Documented → Exact hps s (hazptrScan lib hps s)) ↔
      ∀ cur ∈ s.rlist, InWindow (cur :: hazards hps) := by
  constructor
  · intro h cur hcur
    rw [← orders_iff (List.cons_ne_nil _ _)]
    by_contra ho
    have hex := h contraryLib contraryLib_documented
    have ho' : ¬ Orders compare (cur :: sortBy compare (hazards hps)) := fun ho' =>
      ho <| ho'.subset fun x hx =>
        List.mem_cons.mpr ((List.mem_cons.mp hx).imp id (sortBy_perm _).mem_iff.mpr)
    have hb : contraryLib.bsearch compare cur (contraryLib.qsort compare (hazards hps)) = true ↔
        cur ∉ hazards hps := by
      simp [contraryLib, ho', (@sortBy_perm Word compare (hazards hps)).mem_iff]
    have hk := hex.kept cur
    rw [hazptrScan, scanLoop_eq] at hk
    simp only [List.append_nil, List.mem_reverse, List.mem_filter, hb, hcur, true_and] at hk
    exact (not_iff_self hk)
  · intro h lib hlib
    exact exact_of_search hnd fun cur hcur =>
      search_iff hlib ((orders_iff (List.cons_ne_nil _ _)).mpr (h cur hcur))

/-! ### Two nodes 32 GiB apart -/

/-- The two hazard pointers of the one thread: 16 and `NULL`. -/
def farHps (i : Fin (H 1)) : Word := if i.val = 0 then 16 else 0

/-- A node `2 ^ 35` bytes above. -/
def far : Word := 0x800000010

/-- It is the one that is retired. -/
def farSt : St := ⟨[far], 1, []⟩

/-- A node 8 bytes above the hazardous one. -/
theorem scan_exact_iff_near : (∀ lib : Lib Word, lib.Documented →
    Exact farHps ⟨[24], 1, []⟩ (hazptrScan lib farHps ⟨[24], 1, []⟩)) ↔
      ∀ cur ∈ [(24 : Word)], InWindow (cur :: hazards farHps) :=
  scan_exact_iff farHps ⟨[24], 1, []⟩ (List.nodup_singleton _)

/-- `compare` takes the node for the hazardous one, and it is not freed. -/
theorem scan_keeps_free_node : ¬ ∀ (n : ℕ) (hps : Fin (H n) → Word) (s : St) (lib : Lib Word),
    lib.Documented → s.rlist.Nodup → Exact hps s (hazptrScan lib hps s) := by
  intro h
  have hex := h 1 farHps farSt (listLib Word) listLib_documented (List.nodup_singleton _)
  have hkept : (hazptrScan (listLib Word) farHps farSt).rlist = [far] := by decide
  have hin := (hex.kept far).mp (by rw [hkept]; exact List.mem_singleton.mpr rfl)
  exact absurd hin.2 (by decide)

end Hazptr
end Perfbook
