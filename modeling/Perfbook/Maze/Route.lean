/-
# `SMPdesign/maze/maze_part.c`: a route through the partitions

When two threads meet, the one that notices records the pair of cells in its own `adj[]`.
`maze_solve_map_adj` copies each encounter to where the other thread would have recorded it, and
`maze_solve_route_partitions` then looks for a route from partition 0, which has the start, to partition 1,
which has the end. It is a depth-first search without a stack of its own: `path[]` is the path to where it is,
and the last entry counts through the partitions it has to try.

`none` is an access outside of an array. The loop of the search has fuel; the loop over candidates needs
`nthreads + 1` tests at most.

Key definitions: `Rowcolpair`, `mapAdj`, `nextPartition`, `routePartitions`, `Met`, `Route`, `Searching`.
Key theorems: `mapAdj_eq`, `nextPartition_spec`, `routeLoop_spec`, `routePartitions_exact`.
-/
import Mathlib.Data.Nat.PSub
import Mathlib.Data.Fintype.Card
import Perfbook.Conc.Avoid

namespace Perfbook
namespace MazePart

/-- `struct rowcolpair`: my row and column, and theirs. -/
structure Rowcolpair where
  mr : ℤ
  mc : ℤ
  tr : ℤ
  tc : ℤ
deriving DecidableEq

namespace Rowcolpair

/-- No encounter, as `maze_solve_init` leaves it. -/
def unset : Rowcolpair := ⟨-1, -1, -1, -1⟩

/-- The encounter as the other thread sees it. -/
def swap (e : Rowcolpair) : Rowcolpair := ⟨e.tr, e.tc, e.mr, e.mc⟩

/-- No encounter, or one of two cells. -/
def Entered (e : Rowcolpair) : Prop := e = unset ∨ 0 ≤ e.mr ∧ 0 ≤ e.mc ∧ 0 ≤ e.tr ∧ 0 ≤ e.tc

end Rowcolpair

/-- `mcp[i].adj[j]` for all `i` and `j`. -/
abbrev Adj := ℕ → ℕ → Rowcolpair

def Adj.set (adj : Adj) (i j : ℕ) (e : Rowcolpair) : Adj := Function.update adj i (Function.update (adj i) j e)

/-- The body of the loops of `maze_solve_map_adj`. -/
def mapAdjBody (adj : Adj) (i j : ℕ) : Adj :=
  if (adj i j).mr = -1 then
    let adj := adj.set i j { adj i j with mr := (adj j i).tr }
    let adj := adj.set i j { adj i j with mc := (adj j i).tc }
    let adj := adj.set i j { adj i j with tr := (adj j i).mr }
    adj.set i j { adj i j with tc := (adj j i).mc }
  else adj

/-- `maze_solve_map_adj`. -/
def mapAdj (nthreads : ℕ) (adj : Adj) : Adj :=
  ((List.range nthreads).flatMap fun i => (List.range nthreads).map fun j => (i, j)).foldl
    (fun adj ij => mapAdjBody adj ij.1 ij.2) adj

/-- An entry of an array of `n`. -/
def peek {A : Type} (n : ℕ) (a : ℕ → A) (i : ℕ) : Option A := if i < n then some (a i) else none

def poke {A : Type} (n : ℕ) (a : ℕ → A) (i : ℕ) (x : A) : Option (ℕ → A) :=
  if i < n then some (Function.update a i x) else none

section

variable (nthreads : ℕ) (adj : Adj)

/-- `for (i = 0; i < pathidx; i++) if (path[i] == path[pathidx]) break;`: whether the loop is left early. -/
def beenHere (path : ℕ → ℕ) (pathidx : ℕ) : Option Bool :=
  (List.range pathidx).anyM fun i => do
    let p ← peek nthreads path i
    let c ← peek nthreads path pathidx
    some (p == c)

/-- Whether there is a way from `path[pathidx - 1]` to `path[pathidx]`. -/
def adjacent (path : ℕ → ℕ) (pathidx : ℕ) : Option Bool := do
  let prev ← pathidx.ppred
  let p ← peek nthreads path prev
  let c ← peek nthreads path pathidx
  let row ← peek nthreads adj p
  let e ← peek nthreads row c
  some (e.mr != -1)

/-- Whether `path[pathidx]` is a possible next partition. -/
def possible (path : ℕ → ℕ) (pathidx : ℕ) : Option Bool := do
  let been ← beenHere nthreads path pathidx
  if been then some false else adjacent nthreads adj path pathidx

/-- `for (; path[pathidx] < nthreads; path[pathidx]++)`: the next partition to go to. -/
def nextPartition (pathidx : ℕ) : ℕ → (ℕ → ℕ) → Option (ℕ → ℕ)
  | 0, _ => none
  | fuel + 1, path => do
    let c ← peek nthreads path pathidx
    if c < nthreads then
      let found ← possible nthreads adj path pathidx
      if found then some path
      else
        let path ← poke nthreads path pathidx (c + 1)
        nextPartition pathidx fuel path
    else some path

/-- The outer loop of `maze_solve_route_partitions`. -/
def routeLoop : ℕ → (ℕ → ℕ) → ℕ → Option (Bool × (ℕ → ℕ))
  | 0, _, _ => none
  | fuel + 1, path, pathidx => do
    let path ← nextPartition nthreads adj pathidx (nthreads + 1) path
    let c ← peek nthreads path pathidx
    if c = 1 then some (true, path)
    else if pathidx < nthreads - 1 ∧ c < nthreads then
      let path ← poke nthreads path (pathidx + 1) 1
      routeLoop fuel path (pathidx + 1)
    else if pathidx = 1 then some (false, path)
    else
      -- backtrack
      let pathidx ← pathidx.ppred
      let c ← peek nthreads path pathidx
      let path ← poke nthreads path pathidx (c + 1)
      routeLoop fuel path pathidx

/-- `maze_solve_route_partitions`: whether there is a solution, and `path[]`. -/
def routePartitions (fuel : ℕ) (path : ℕ → ℕ) : Option (Bool × (ℕ → ℕ)) :=
  if nthreads = 1 then some (true, path)
  else do
    let path ← poke nthreads path 0 0
    let path ← poke nthreads path 1 1
    if nthreads = 2 then some (true, path)
    else routeLoop nthreads adj fuel path 1

/-- Partitions `a` and `b` have met. -/
def Met (a b : ℕ) : Prop := a < nthreads ∧ b < nthreads ∧ ((adj a b).mr ≠ -1 ∨ (adj b a).mr ≠ -1)

/-- There is an entry for `b` in the `adj[]` of `a`. -/
def Linked (a b : ℕ) : Prop := a < nthreads ∧ b < nthreads ∧ (adj a b).mr ≠ -1

end

/-- `path[]` leads from partition 0 over different partitions to the first entry that is 1. -/
structure Route (nthreads : ℕ) (step : ℕ → ℕ → Prop) (path : ℕ → ℕ) (last : ℕ) : Prop where
  start : path 0 = 0
  pos : 1 ≤ last
  lt : last < nthreads
  end_ : path last = 1
  first : ∀ i < last, path i ≠ 1
  bound : ∀ i ≤ last, path i < nthreads
  ne : ∀ i j, i < j → j ≤ last → path i ≠ path j
  step : ∀ i < last, step (path i) (path (i + 1))

/-! ### The encounters -/

section

variable {n : ℕ} {adj cur : Adj} {i j a b : ℕ}

theorem Adj.set_same (adj : Adj) (i j : ℕ) (e : Rowcolpair) : adj.set i j e i j = e := by
  simp [Adj.set]

theorem Adj.set_other (adj : Adj) (e : Rowcolpair) (h : (a, b) ≠ (i, j)) : adj.set i j e a b = adj a b := by
  unfold Adj.set
  by_cases ha : a = i
  · subst ha
    rw [Function.update_self]
    exact Function.update_of_ne (fun hb => h (by rw [hb])) ..
  · rw [Function.update_of_ne ha]

/-- The entry for `b` in the `adj[]` of `a` when all are copied. -/
def mirror (adj : Adj) (a b : ℕ) : Rowcolpair := if (adj a b).mr = -1 then (adj b a).swap else adj a b

theorem Rowcolpair.Entered.unset_of {e : Rowcolpair} (h : e.Entered) (hm : e.mr = -1) : e = unset := by
  refine h.resolve_right fun hpos => ?_
  omega

theorem Rowcolpair.Entered.tr_ne {e : Rowcolpair} (h : e.Entered) (hm : e.mr ≠ -1) : e.tr ≠ -1 := by
  obtain rfl | hpos := h
  · exact absurd rfl hm
  · omega

/-- An entry that is set stays. -/
theorem mapAdjBody_of_ne (h : (cur i j).mr ≠ -1) : mapAdjBody cur i j = cur := if_neg h

theorem mapAdjBody_other (h : (a, b) ≠ (i, j)) : mapAdjBody cur i j a b = cur a b := by
  unfold mapAdjBody
  split
  · simp only [Adj.set_other _ _ h]
  · rfl

/-- One that is not set gets the other thread's. -/
theorem mapAdjBody_same (hij : i ≠ j) (h : (cur i j).mr = -1) : mapAdjBody cur i j i j = (cur j i).swap := by
  have hne : (j, i) ≠ (i, j) := by simp [hij.symm]
  unfold mapAdjBody
  rw [if_pos h]
  simp only [Adj.set_same, Adj.set_other _ _ hne]
  rfl

theorem mapAdjBody_diag (h : cur i i = Rowcolpair.unset) : mapAdjBody cur i i i i = Rowcolpair.unset := by
  unfold mapAdjBody
  rw [if_pos (by rw [h]; rfl)]
  simp only [Adj.set_same, h]
  rfl

/-- Some of the entries are copied already. -/
def Partly (n : ℕ) (adj cur : Adj) : Prop := ∀ a < n, ∀ b < n, cur a b = adj a b ∨ cur a b = mirror adj a b

theorem mirror_unset (ha : (adj a b).Entered) (hb : (adj b a).Entered) (h : (mirror adj a b).mr = -1) :
    adj a b = Rowcolpair.unset ∧ adj b a = Rowcolpair.unset := by
  unfold mirror at h
  by_cases hm : (adj a b).mr = -1
  · rw [if_pos hm] at h
    refine ⟨ha.unset_of hm, hb.unset_of ?_⟩
    by_contra hne
    exact hb.tr_ne hne h
  · rw [if_neg hm] at h
    exact absurd h hm

variable (hadj : ∀ a < n, ∀ b < n, (adj a b).Entered)

include hadj

/-- An entry that is not set, and has not been copied from the other thread's, is not set there. -/
theorem mapAdjBody_mirror (hcur : Partly n adj cur) (hi : i < n) (hj : j < n) :
    mapAdjBody cur i j i j = mirror adj i j := by
  by_cases hm : (cur i j).mr = -1
  · have hun : adj i j = Rowcolpair.unset := by
      obtain h | h := hcur i hi j hj
      · exact (hadj i hi j hj).unset_of (h ▸ hm)
      · exact (mirror_unset (hadj i hi j hj) (hadj j hj i hi) (h ▸ hm)).1
    have hmir : mirror adj i j = (adj j i).swap := if_pos (by rw [hun]; rfl)
    by_cases hij : i = j
    · subst hij
      rw [hmir, hun]
      refine mapAdjBody_diag ?_
      obtain h | h := hcur i hi i hi
      · rw [h, hun]
      · rw [h, hmir, hun]
        rfl
    · rw [mapAdjBody_same hij hm, hmir]
      obtain h | h := hcur j hj i hi
      · rw [h]
      · rw [h]
        unfold mirror
        split
        · rename_i hji
          rw [hun, (hadj j hj i hi).unset_of hji]
          rfl
        · rfl
  · rw [mapAdjBody_of_ne hm]
    obtain h | h := hcur i hi j hj
    · rw [h] at hm ⊢
      exact (if_neg hm).symm
    · exact h

theorem mapAdj_fold (l : List (ℕ × ℕ)) (hl : ∀ ij ∈ l, ij.1 < n ∧ ij.2 < n) (hcur : Partly n adj cur)
    (h : (a, b) ∈ l ∨ cur a b = mirror adj a b) :
    l.foldl (fun adj ij => mapAdjBody adj ij.1 ij.2) cur a b = mirror adj a b := by
  induction l generalizing cur with
  | nil => exact h.resolve_left List.not_mem_nil
  | cons ij l ih =>
    obtain ⟨hi, hj⟩ := hl ij List.mem_cons_self
    have hnew := mapAdjBody_mirror hadj hcur hi hj
    refine ih (fun ij hij => hl ij (List.mem_cons_of_mem _ hij)) (fun c hc d hd => ?_) ?_
    · by_cases hcd : (c, d) = ij
      · subst hcd
        exact .inr hnew
      · simp only [mapAdjBody_other hcd]
        exact hcur c hc d hd
    · by_cases hab : (a, b) = ij
      · subst hab
        exact .inr hnew
      · simp only [mapAdjBody_other hab]
        exact h.imp_left fun hm => (List.mem_cons.mp hm).resolve_left hab

/-- Each encounter is in the `adj[]` of both threads. -/
theorem mapAdj_eq (ha : a < n) (hb : b < n) : mapAdj n adj a b = mirror adj a b := by
  refine mapAdj_fold hadj _ ?_ (fun _ _ _ _ => .inl rfl) (.inl ?_)
  · intro ij hij
    simp only [List.mem_flatMap, List.mem_map, List.mem_range] at hij
    obtain ⟨i, hi, j, hj, rfl⟩ := hij
    exact ⟨hi, hj⟩
  · simp only [List.mem_flatMap, List.mem_map, List.mem_range]
    exact ⟨a, ha, b, hb, rfl⟩

theorem linked_mapAdj : Linked n (mapAdj n adj) a b ↔ Met n adj a b := by
  refine and_congr_right fun ha => and_congr_right fun hb => ?_
  rw [mapAdj_eq hadj ha hb]
  constructor
  · intro h
    by_contra hno
    simp only [not_or, not_not] at hno
    have hun := (hadj b hb a ha).unset_of hno.2
    refine h ?_
    unfold mirror
    rw [if_pos hno.1, hun]
    rfl
  · intro h hm
    obtain ⟨hab, hba⟩ := mirror_unset (hadj a ha b hb) (hadj b hb a ha) hm
    rw [hab, hba] at h
    exact h.elim (fun h => h rfl) fun h => h rfl

end

/-! ### The search -/

section

open Relation

variable {n : ℕ} {adj : Adj} {path path' : ℕ → ℕ} {k i c fuel : ℕ}

/-- The entries of `path[]` before entry `k`. -/
def used (path : ℕ → ℕ) (k : ℕ) : Set ℕ := fun v => ∃ i < k, path i = v

theorem mem_used {v : ℕ} : v ∈ used path k ↔ ∃ i < k, path i = v := Iff.rfl

theorem used_succ (path : ℕ → ℕ) (k : ℕ) : used path (k + 1) = insert (path k) (used path k) := by
  ext v
  simp only [Set.mem_insert_iff, mem_used, Nat.lt_succ_iff_lt_or_eq, or_and_right, exists_or, exists_eq_left]
  rw [or_comm, eq_comm]

theorem used_congr (h : ∀ i < k, path' i = path i) : used path' k = used path k := by
  ext v
  exact exists_congr fun i => and_congr_right fun hi => by rw [h i hi]

/-- The entries of `path[]` before entry `k` are a path that has not come to the goal. -/
structure Trail (n : ℕ) (adj : Adj) (path : ℕ → ℕ) (k : ℕ) : Prop where
  start : path 0 = 0
  pos : 1 ≤ k
  bound : ∀ i < k, path i < n
  goal : ∀ i < k, path i ≠ 1
  ne : ∀ i j, i < j → j < k → path i ≠ path j
  step : ∀ i, i + 1 < k → Linked n adj (path i) (path (i + 1))

/-- What was tried at entry `i + 1`, in place of what is there now, does not lead to the goal. -/
def Dead (n : ℕ) (adj : Adj) (path : ℕ → ℕ) (i : ℕ) : Prop :=
  ∀ v < path (i + 1), v ∉ used path (i + 1) → Linked n adj (path i) v →
    ¬ ReflTransGen (Conc.Avoid (Linked n adj) (used path (i + 1))) v 1

/-- The search is at entry `k` of `path[]`. -/
structure Searching (n : ℕ) (adj : Adj) (path : ℕ → ℕ) (k : ℕ) : Prop extends Trail n adj path k where
  lt : k < n
  le : path k ≤ n
  dead : ∀ i < k, Dead n adj path i

/-- Candidate `path[k]` is a next partition. -/
def Next (n : ℕ) (adj : Adj) (path : ℕ → ℕ) (k : ℕ) : Prop :=
  path k ∉ used path k ∧ Linked n adj (path (k - 1)) (path k)

theorem Trail.congr (h : Trail n adj path k) (heq : ∀ i < k, path' i = path i) : Trail n adj path' k := by
  have hpos := h.pos
  refine ⟨by rw [heq 0 (by omega), h.start], hpos, fun i hi => ?_, fun i hi => ?_, fun i j hij hj => ?_,
    fun i hi => ?_⟩
  · rw [heq i hi]
    exact h.bound i hi
  · rw [heq i hi]
    exact h.goal i hi
  · rw [heq i (by omega), heq j hj]
    exact h.ne i j hij hj
  · rw [heq i (by omega), heq (i + 1) hi]
    exact h.step i hi

theorem Trail.init (h : Trail n adj path (k + 2)) : Trail n adj path (k + 1) :=
  ⟨h.start, Nat.succ_pos k, fun i hi => h.bound i (by omega), fun i hi => h.goal i (by omega),
    fun i j hij hj => h.ne i j hij (by omega), fun i hi => h.step i (by omega)⟩

theorem Next.lt (h : Next n adj path k) : path k < n := h.2.2.1

theorem Trail.bound_le (h : Trail n adj path k) (hnext : Next n adj path k) (i : ℕ) (hi : i ≤ k) : path i < n := by
  obtain hi | rfl := Nat.lt_or_eq_of_le hi
  · exact h.bound i hi
  · exact hnext.lt

theorem Trail.ne_le (h : Trail n adj path k) (hnext : Next n adj path k) (i j : ℕ) (hij : i < j) (hj : j ≤ k) :
    path i ≠ path j := by
  obtain hj | rfl := Nat.lt_or_eq_of_le hj
  · exact h.ne i j hij hj
  · exact fun heq => hnext.1 ⟨i, hij, heq⟩

theorem Trail.step_le (h : Trail n adj path k) (hnext : Next n adj path k) (i : ℕ) (hi : i + 1 ≤ k) :
    Linked n adj (path i) (path (i + 1)) := by
  obtain hi | rfl := Nat.lt_or_eq_of_le hi
  · exact h.step i hi
  · exact hnext.2

theorem Trail.goal_le (h : Trail n adj path k) (hone : path k ≠ 1) (i : ℕ) (hi : i ≤ k) : path i ≠ 1 := by
  obtain hi | rfl := Nat.lt_or_eq_of_le hi
  · exact h.goal i hi
  · exact hone

theorem Trail.snoc (h : Trail n adj path k) (hnext : Next n adj path k) (hone : path k ≠ 1) :
    Trail n adj path (k + 1) :=
  ⟨h.start, Nat.succ_pos k, fun i hi => h.bound_le hnext i (Nat.lt_succ_iff.mp hi),
    fun i hi => h.goal_le hone i (Nat.lt_succ_iff.mp hi),
    fun i j hij hj => h.ne_le hnext i j hij (Nat.lt_succ_iff.mp hj),
    fun i hi => h.step_le hnext i (Nat.lt_succ_iff.mp hi)⟩

theorem Dead.congr (h : Dead n adj path i) (heq : ∀ j ≤ i + 1, path' j = path j) : Dead n adj path' i := by
  unfold Dead
  rw [used_congr fun j hj => heq j hj.le, heq (i + 1) le_rfl, heq i (Nat.le_succ i)]
  exact h

/-- Partition 0 is where the path starts, so it is not tried. -/
theorem dead_first (h0 : path 0 = 0) (h : path (i + 1) = 1) : Dead n adj path i := by
  intro v hv hnew
  rw [h] at hv
  exact absurd ⟨0, Nat.succ_pos i, by rw [h0]; omega⟩ hnew

/-- One more candidate is known not to lead to the goal. -/
theorem Dead.inc (h : Dead n adj path i) (heq : ∀ j ≤ i, path' j = path j) (hinc : path' (i + 1) = path (i + 1) + 1)
    (hlast : path (i + 1) ∉ used path (i + 1) → Linked n adj (path i) (path (i + 1)) →
      ¬ ReflTransGen (Conc.Avoid (Linked n adj) (used path (i + 1))) (path (i + 1)) 1) : Dead n adj path' i := by
  unfold Dead
  rw [used_congr fun j hj => heq j (Nat.lt_succ_iff.mp hj), heq i le_rfl, hinc]
  intro v hv
  obtain hlt | rfl := Nat.lt_succ_iff_lt_or_eq.mp hv
  · exact h v hlt
  · exact hlast

@[simp] theorem peek_of_lt {A : Type} {a : ℕ → A} (h : i < n) : peek n a i = some (a i) := if_pos h

@[simp] theorem poke_of_lt {A : Type} {a : ℕ → A} {x : A} (h : i < n) :
    poke n a i x = some (Function.update a i x) := if_pos h

theorem anyM_some {f : ℕ → Option Bool} {p : ℕ → Bool} {l : List ℕ} (h : ∀ i ∈ l, f i = some (p i)) :
    l.anyM f = some (l.any p) := by
  induction l with
  | nil => rfl
  | cons i l ih =>
    have ih := ih fun j hj => h j (List.mem_cons_of_mem _ hj)
    cases hp : p i <;> simp [List.anyM, h i, hp, ih]

theorem beenHere_eq (path : ℕ → ℕ) (hk : k < n) :
    ∃ been, beenHere n path k = some been ∧ (been = true ↔ path k ∈ used path k) := by
  refine ⟨(List.range k).any fun i => path i == path k, anyM_some fun i hi => ?_, ?_⟩
  · have hi := List.mem_range.mp hi
    simp [hk, hi.trans hk]
  · simp [mem_used]

theorem adjacent_eq (adj : Adj) (hk : k + 1 < n) (hprev : path k < n) (hc : path (k + 1) < n) :
    ∃ found, adjacent n adj path (k + 1) = some found ∧
      (found = true ↔ Linked n adj (path k) (path (k + 1))) := by
  refine ⟨(adj (path k) (path (k + 1))).mr != -1, ?_, by simp [Linked, hprev, hc]⟩
  simp [adjacent, Nat.ppred_succ, hk, hprev, hc, Nat.lt_of_succ_lt hk]

theorem Searching.possible_eq (h : Searching n adj path k) (hc : path k < n) :
    ∃ found, possible n adj path k = some found ∧ (found = true ↔ Next n adj path k) := by
  obtain ⟨j, rfl⟩ : ∃ j, k = j + 1 := ⟨k - 1, by have := h.pos; omega⟩
  obtain ⟨been, hbeen, hbeen'⟩ := beenHere_eq path h.lt
  rw [possible, hbeen]
  cases been with
  | true => exact ⟨false, rfl, by simp [Next, hbeen'.mp rfl]⟩
  | false =>
    have hnew : path (j + 1) ∉ used path (j + 1) := fun hu => Bool.noConfusion (hbeen'.mpr hu)
    obtain ⟨found, hadj, hlink⟩ := adjacent_eq adj h.lt (h.bound j (by omega)) hc
    exact ⟨found, hadj, by simp [Next, hlink, hnew]⟩

/-- The candidate at entry `k` is passed over. -/
theorem Searching.skip (h : Searching n adj path k) (hc : path k < n) (hno : ¬ Next n adj path k) :
    Searching n adj (Function.update path k (path k + 1)) k := by
  have hkeep : ∀ i < k, Function.update path k (path k + 1) i = path i :=
    fun i hi => Function.update_of_ne hi.ne ..
  refine ⟨h.toTrail.congr hkeep, h.lt, by rw [Function.update_self]; exact hc, fun i hi => ?_⟩
  obtain hik | rfl := Nat.lt_or_eq_of_le (Nat.succ_le_of_lt hi)
  · exact (h.dead i hi).congr fun j hj => hkeep j (by omega)
  · refine (h.dead i hi).inc (fun j hj => hkeep j (by omega)) (Function.update_self ..) fun hnew hlink => ?_
    exact absurd ⟨hnew, hlink⟩ hno

/-- The next candidate is one that is new and linked, or there is none. -/
theorem nextPartition_spec (h : Searching n adj path k) (hfuel : n + 1 ≤ fuel + path k) :
    ∃ path', nextPartition n adj k fuel path = some path' ∧ Searching n adj path' k ∧
      (∀ i ≤ k, path i ≤ path' i) ∧ (path' k < n → Next n adj path' k) := by
  induction fuel generalizing path with
  | zero =>
    have := h.le
    omega
  | succ fuel ih =>
    have hk := h.lt
    rw [nextPartition, peek_of_lt hk]
    simp only [Option.bind_eq_bind, Option.bind_some]
    by_cases hc : path k < n
    · obtain ⟨found, hfound, hfound'⟩ := h.possible_eq hc
      rw [if_pos hc, hfound, Option.bind_some]
      cases found with
      | true => exact ⟨path, rfl, h, fun _ _ => le_rfl, fun _ => hfound'.mp rfl⟩
      | false =>
        have hno := mt hfound'.mpr Bool.false_ne_true
        have hself : Function.update path k (path k + 1) k = path k + 1 := Function.update_self ..
        obtain ⟨path', hrun, hs, hmono, hcand⟩ := ih (h.skip hc hno) (by rw [hself]; omega)
        refine ⟨path', by simpa [hk] using hrun, hs, fun i hi => le_trans ?_ (hmono i hi), hcand⟩
        by_cases hik : i = k
        · rw [hik, hself]
          omega
        · rw [Function.update_of_ne hik]
    · exact ⟨path, if_neg hc, h, fun _ _ => le_rfl, fun hlt => absurd hlt hc⟩

/-- The goal is found. -/
theorem Searching.route (h : Searching n adj path k) (hnext : Next n adj path k) (hone : path k = 1) :
    Route n (Linked n adj) path k :=
  ⟨h.start, h.pos, h.lt, hone, h.goal, h.bound_le hnext, h.ne_le hnext, fun i hi => h.step_le hnext i hi⟩

/-- A path with all partitions has the goal among them. -/
theorem Searching.not_full (h : Searching n adj path k) (hnext : Next n adj path k) (hone : path k ≠ 1) :
    k < n - 1 := by
  by_contra hfull
  have hk := h.lt
  have hcard : ((Finset.range n).erase 1).card < (Finset.range (k + 1)).card := by
    rw [Finset.card_erase_of_mem (Finset.mem_range.mpr (by have := h.pos; omega)), Finset.card_range,
      Finset.card_range]
    omega
  obtain ⟨i, hi, j, hj, hij, heq⟩ := Finset.exists_ne_map_eq_of_card_lt_of_maps_to (f := path) hcard
    fun i hi => by
      have hi := Nat.lt_succ_iff.mp (Finset.mem_range.mp hi)
      exact Finset.mem_erase.mpr ⟨h.goal_le hone i hi, Finset.mem_range.mpr (h.bound_le hnext i hi)⟩
  have hi := Nat.lt_succ_iff.mp (Finset.mem_range.mp hi)
  have hj := Nat.lt_succ_iff.mp (Finset.mem_range.mp hj)
  obtain hlt | hlt := Nat.lt_or_gt_of_ne hij
  · exact h.ne_le hnext i j hlt hj heq
  · exact h.ne_le hnext j i hlt hi heq.symm

/-- The search goes on with the partitions next to `path[k]`. -/
theorem Searching.deeper (h : Searching n adj path k) (hnext : Next n adj path k) (hone : path k ≠ 1)
    (hk : k < n - 1) : Searching n adj (Function.update path (k + 1) 1) (k + 1) := by
  have hkeep : ∀ i < k + 1, Function.update path (k + 1) 1 i = path i := fun i hi => Function.update_of_ne hi.ne ..
  have htrail := (h.toTrail.snoc hnext hone).congr hkeep
  refine ⟨htrail, by omega, by rw [Function.update_self]; omega, fun i hi => ?_⟩
  obtain hik | rfl := Nat.lt_or_eq_of_le (Nat.lt_succ_iff.mp hi)
  · exact (h.dead i hik).congr fun j hj => hkeep j (by omega)
  · exact dead_first htrail.start (Function.update_self ..)

/-- All partitions next to the one at entry `k + 1` are dead ends: so is that one. -/
theorem Searching.back (h : Searching n adj path (k + 2)) (hc : ¬ path (k + 2) < n) :
    Searching n adj (Function.update path (k + 1) (path (k + 1) + 1)) (k + 1) := by
  have hkeep : ∀ i < k + 1, Function.update path (k + 1) (path (k + 1) + 1) i = path i :=
    fun i hi => Function.update_of_ne hi.ne ..
  refine ⟨h.toTrail.init.congr hkeep, Nat.lt_of_succ_lt h.lt, ?_, fun i hi => ?_⟩
  · rw [Function.update_self]
    exact h.bound (k + 1) (by omega)
  obtain hik | rfl := Nat.lt_or_eq_of_le (Nat.lt_succ_iff.mp hi)
  · exact (h.dead i (by omega)).congr fun j hj => hkeep j (by omega)
  · refine (h.dead i (by omega)).inc (fun j hj => hkeep j (by omega)) (Function.update_self ..) fun _ _ => ?_
    refine Conc.dead_of_next (h.goal (i + 1) (by omega)).symm fun b hab hb hba => ?_
    rw [← used_succ]
    refine h.dead (i + 1) (by omega) b (Nat.lt_of_lt_of_le hab.2.1 (Nat.not_lt.mp hc)) ?_ hab
    rw [used_succ]
    exact fun hb' => hb'.elim hba hb

/-- All partitions next to partition 0 are dead ends. -/
theorem Searching.exhausted (h : Searching n adj path 1) (hc : ¬ path 1 < n) :
    ¬ ReflTransGen (Linked n adj) 0 1 := by
  intro hreach
  refine Conc.dead_of_next Nat.one_ne_zero (fun b hab _ hba => ?_) (Conc.reach_avoid_empty hreach)
  have hused : used path 1 = insert 0 ∅ := by
    rw [used_succ, h.start]
    exact congrArg _ (Set.eq_empty_iff_forall_notMem.mpr fun v ⟨i, hi, _⟩ => Nat.not_lt_zero i hi)
  have hdead := h.dead 0 Nat.one_pos b (Nat.lt_of_lt_of_le hab.2.1 (Nat.not_lt.mp hc))
  rw [h.start, hused] at hdead
  exact hdead (fun hb => hb.elim hba id) hab

theorem routeLoop_spec (h : Searching n adj path k) (hfuel : (n + 1) ^ (n + 1) ≤ fuel + Conc.digits n path k) :
    ∃ found path', routeLoop n adj fuel path k = some (found, path') ∧
      (found = true → ∃ last, Route n (Linked n adj) path' last) ∧
      (found = false → ¬ ReflTransGen (Linked n adj) 0 1) := by
  induction fuel generalizing path k with
  | zero =>
    have := Conc.digits_lt h.lt.le fun i hi => (Nat.lt_or_eq_of_le hi).elim (fun hi => (h.bound i hi).le)
      fun heq => heq ▸ h.le
    omega
  | succ fuel ih =>
    have hpos := h.pos
    obtain ⟨path', hrun, hs, hmono, hnext⟩ := nextPartition_spec h (Nat.le_add_right (n + 1) (path k))
    have hdigits := Conc.digits_mono (n := n) hmono
    rw [routeLoop, hrun]
    simp only [Option.bind_eq_bind, Option.bind_some, peek_of_lt hs.lt]
    by_cases hone : path' k = 1
    · rw [if_pos hone]
      refine ⟨true, path', rfl, fun _ => ⟨k, hs.route (hnext ?_) hone⟩, nofun⟩
      have := hs.lt
      omega
    rw [if_neg hone]
    by_cases hc : path' k < n
    · have hk := hs.not_full (hnext hc) hone
      rw [if_pos ⟨hk, hc⟩, poke_of_lt (by omega), Option.bind_some]
      refine ih (hs.deeper (hnext hc) hone hk) ?_
      have hkeep : Conc.digits n (Function.update path' (k + 1) 1) k = Conc.digits n path' k :=
        Conc.digits_congr fun i hi => Function.update_of_ne (by omega) ..
      have := Conc.digits_deeper (n := n) (p := Function.update path' (k + 1) 1) (k := k)
        (by rw [Function.update_self])
      omega
    · rw [if_neg fun hand => hc hand.2]
      by_cases hk : k = 1
      · subst hk
        rw [if_pos rfl]
        exact ⟨false, path', rfl, nofun, fun _ => hs.exhausted hc⟩
      · obtain ⟨j, rfl⟩ : ∃ j, k = j + 2 := ⟨k - 2, by omega⟩
        have hlt : j + 1 < n := by have := hs.lt; omega
        rw [if_neg hk, Nat.ppred_succ, Option.bind_some, peek_of_lt hlt, Option.bind_some, poke_of_lt hlt,
          Option.bind_some]
        refine ih (hs.back hc) ?_
        have := Conc.digits_back (n := n) (p := path')
          (q := Function.update path' (j + 1) (path' (j + 1) + 1)) (k := j) hlt.le hs.le
          (fun i hi => Function.update_of_ne (by omega) ..) (Function.update_self ..)
        omega

theorem Route.reach {step : ℕ → ℕ → Prop} {last : ℕ} (h : Route n step path last) : ReflTransGen step 0 1 := by
  have hall : ∀ i ≤ last, ReflTransGen step 0 (path i) := by
    intro i hi
    induction i with
    | zero => rw [h.start]
    | succ i ih => exact (ih (by omega)).tail (h.step i hi)
  have := hall last le_rfl
  rwa [h.end_] at this

theorem searching_start (adj : Adj) (path : ℕ → ℕ) (hn : 3 ≤ n) :
    Searching n adj (Function.update (Function.update path 0 0) 1 1) 1 := by
  have h0 : Function.update (Function.update path 0 0) 1 1 0 = 0 := by
    rw [Function.update_of_ne Nat.zero_ne_one, Function.update_self]
  have hzero : ∀ i < 1, Function.update (Function.update path 0 0) 1 1 i = 0 := fun i hi => by
    obtain rfl := Nat.lt_one_iff.mp hi
    exact h0
  refine ⟨⟨h0, le_rfl, fun i hi => ?_, fun i hi => ?_, fun i j hij hj => by omega, fun i hi => by omega⟩,
    by omega, by rw [Function.update_self]; omega, fun i hi => ?_⟩
  · rw [hzero i hi]
    omega
  · rw [hzero i hi]
    exact Nat.zero_ne_one
  · obtain rfl := Nat.lt_one_iff.mp hi
    exact dead_first h0 (Function.update_self ..)

/-- **The search for a route is exact.** With any encounters it ends and stays within its arrays, it finds a route
if and only if there is one, and `path[]` is then one. -/
theorem routePartitions_exact (hn : 3 ≤ n) (hadj : ∀ a < n, ∀ b < n, (adj a b).Entered) (path : ℕ → ℕ) :
    ∃ bound, ∀ fuel ≥ bound, ∃ found path', routePartitions n (mapAdj n adj) fuel path = some (found, path') ∧
      (found = true ↔ ReflTransGen (Met n adj) 0 1) ∧
      (found = true → ∃ last, Route n (Met n adj) path' last) := by
  have hmet : Linked n (mapAdj n adj) = Met n adj := by
    funext a b
    exact propext (linked_mapAdj hadj)
  refine ⟨(n + 1) ^ (n + 1), fun fuel hfuel => ?_⟩
  have hstart := searching_start (mapAdj n adj) path hn
  obtain ⟨found, path', hrun, hyes, hno⟩ := routeLoop_spec hstart (hfuel.trans (Nat.le_add_right ..))
  rw [hmet] at hyes hno
  refine ⟨found, path', ?_, ⟨fun hf => ?_, fun hreach => ?_⟩, hyes⟩
  · unfold routePartitions
    rw [if_neg (by omega), poke_of_lt (by omega)]
    simp only [Option.bind_eq_bind, Option.bind_some]
    rw [poke_of_lt (by omega), Option.bind_some, if_neg (by omega), hrun]
  · obtain ⟨last, hroute⟩ := hyes hf
    exact hroute.reach
  · cases found with
    | true => rfl
    | false => exact absurd hreach (hno rfl)

/-- Partition 2 has met both others, and they did not meet. -/
def encounters : Adj := fun a b => if (a, b) = (2, 0) ∨ (a, b) = (1, 2) then ⟨0, 1, 0, 0⟩ else Rowcolpair.unset

theorem routePartitions_exact_three :
    ∃ bound, ∀ fuel ≥ bound, ∃ found path',
      routePartitions 3 (mapAdj 3 encounters) fuel (fun _ => 0) = some (found, path') ∧
      (found = true ↔ ReflTransGen (Met 3 encounters) 0 1) ∧
      (found = true → ∃ last, Route 3 (Met 3 encounters) path' last) := by
  refine routePartitions_exact le_rfl (fun a _ b _ => ?_) _
  unfold encounters
  split
  · exact .inr (by decide)
  · exact .inl rfl

example : ((routePartitions 3 (mapAdj 3 encounters) 9 fun _ => 0).map fun r => (r.1, r.2 0, r.2 1, r.2 2)) =
    some (true, 0, 2, 1) := by
  decide

end

end MazePart
end Perfbook
