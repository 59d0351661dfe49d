/-
# What the threads of `maze_fg` know

An entry of the list that was claimed is still with the thread that claimed it,
or its cell is explored: all neighbours were visited (`Inv.claimed`). A thread
that is with an entry behind the last one waits. So when the entries behind the
last one are claimed as far as there are threads, each thread has one of these,
none explores anything, and all entries that are there are explored
(`Inv.all_wait`).

A cell that was visited is in the list, or its thread is about to append it
(`Inv.cover`), and these are all different, so the list is never longer than
there are cells (`Inv.room`).

Key definitions: `Loc.own`, `Loc.pending`, `Loc.Found`, `Over`, `LocInv`, `Inv`,
`Grows`.
Key theorems: `Inv.room`, `Inv.all_wait`, `LocInv.grows`, `Inv.of_step`,
`Inv.goes`.
-/
import Mathlib.Data.Fintype.EquivFin
import Mathlib.Data.Fintype.Card
import Perfbook.Maze.Fg

namespace Perfbook
namespace Maze
namespace Fg

variable {n : ℕ}

/-- The entry that a thread has claimed, and has not done with. -/
def Loc.own : Loc → Option ℕ
  | .claim => none
  | .check vi | .giveUp vi | .waitVi vi | .waitCol vi | .waitDone vi | .ready vi | .readRow vi
  | .readCol vi _ | .dist vi _ _ | .try_ vi _ _ _ _ | .cas vi _ _ _ _ _ | .setDist vi _ _
  | .incVi vi _ | .storeRow vi _ _ | .storeCol vi _ _ | .setDone vi | .stopped vi _ => some vi

/-- The cell that a thread has visited and not yet appended. -/
def Loc.pending : Loc → Option Rowcol
  | .setDist _ p _ | .incVi _ p => some p
  | _ => none

/-- The thread has visited the end. -/
def Loc.Found (end_ : Rowcol) : Loc → Prop
  | .setDist _ p _ | .incVi _ p | .storeRow _ p _ | .storeCol _ p _ => p = end_
  | .setDone _ => True
  | .stopped _ found => found = true
  | _ => False

/-- The cell can be reached from the start. -/
def Reaches (mp : Maze) (start p : Rowcol) : Prop := Relation.ReflTransGen mp.Opens start p

/-- All neighbours without a wall in between were visited. -/
def Explored (mp : Maze) (s : St n) (p : Rowcol) : Prop := ∀ q, mp.Opens p q → s.bit q = true

/-- The maze has no solution, and all that can be reached was visited. -/
def Over (mp : Maze) (start end_ : Rowcol) (s : St n) : Prop :=
  (∀ p, Reaches mp start p → s.bit p = true) ∧ ¬ Reaches mp start end_

/-- The entry is there. -/
def St.There (s : St n) (k : ℕ) : Prop := k ≤ s.vi ∧ 0 ≤ (s.visited k).2

/-- A thread explores `cur` for the entry `vi`. -/
structure Explores (mp : Maze) (s : St n) (vi : ℕ) (inner : Bool) (cur : Rowcol) : Prop where
  there : s.There vi
  inside : mp.CellExists cur
  bit : s.bit cur = true
  outer : inner = false → cur = s.cellOf vi

/-- What holds of a thread at a place. -/
def LocInv (mp : Maze) (start end_ : Rowcol) (s : St n) : Loc → Prop
  | .claim | .check _ | .waitVi _ | .waitDone _ => True
  | .giveUp _ => Over mp start end_ s
  | .waitCol vi => vi ≤ s.vi
  | .ready vi => s.There vi ∨ s.done ≠ 0
  | .readRow vi => s.There vi
  | .readCol vi row => s.There vi ∧ row = (s.cellOf vi).1
  | .dist vi inner cur => Explores mp s vi inner cur
  | .try_ vi inner cur _ ps => Explores mp s vi inner cur ∧
      (inner = false → ∀ q, mp.Opens cur q → q ∈ ps ∨ s.bit q = true)
  | .cas vi inner cur _ p ps => Explores mp s vi inner cur ∧ mp.Opens cur p ∧
      (inner = false → ∀ q, mp.Opens cur q → q ∈ p :: ps ∨ s.bit q = true)
  | .setDist vi _ _ | .incVi vi _ => s.There vi
  | .storeRow vi p k => s.There vi ∧ k ≤ s.vi ∧ s.cellOf k = p
  | .storeCol vi p k => s.There vi ∧ k ≤ s.vi ∧ s.cellOf k = p ∧ (s.visited k).1 = p.1
  | .setDone vi => s.There vi ∧ s.bit end_ = true
  | .stopped vi found => found = true → s.There vi

/-- The list: its entries are for different cells that were visited. -/
structure Listed (mp : Maze) (start : Rowcol) (s : St n) : Prop where
  size : s.vi < mp.size
  slot : ∀ k ≤ s.vi, mp.CellExists (s.cellOf k) ∧ s.bit (s.cellOf k) = true
  slot_inj : ∀ k ≤ s.vi, ∀ j ≤ s.vi, s.cellOf k = s.cellOf j → k = j
  first : s.cellOf 0 = start
  filled : ∀ k ≤ s.vi, 0 ≤ (s.visited k).2 → s.visited k = s.cellOf k
  empty : ∀ k < mp.size, s.vi < k → (s.visited k).2 < 0

/-- The cells that were visited are in the list, or about to be. -/
structure Pends (mp : Maze) (s : St n) : Prop where
  pend : ∀ t p, (s.loc t).pending = some p →
    s.bit p = true ∧ mp.CellExists p ∧ ∀ k ≤ s.vi, s.cellOf k ≠ p
  pend_inj : ∀ t u p, (s.loc t).pending = some p → (s.loc u).pending = some p → t = u
  cover : ∀ p, s.bit p = true → (∃ k ≤ s.vi, s.cellOf k = p) ∨ ∃ t, (s.loc t).pending = some p

/-- The entries that were claimed are with a thread, or done with. -/
structure Owns (mp : Maze) (s : St n) : Prop where
  own_lt : ∀ t k, (s.loc t).own = some k → k < s.claims
  own_inj : ∀ t u k, (s.loc t).own = some k → (s.loc u).own = some k → t = u
  claimed : ∀ k < s.claims, (∃ t, (s.loc t).own = some k) ∨ k ≤ s.vi ∧ Explored mp s (s.cellOf k)

/-- What was found, and what was decided. -/
structure Outcome (mp : Maze) (start end_ : Rowcol) (s : St n) : Prop where
  reach : ∀ p, s.bit p = true → Reaches mp start p
  found : s.bit end_ = true → ∃ t, (s.loc t).Found end_
  minus : s.done = -1 → Over mp start end_ s
  one : s.done = 1 → s.bit end_ = true
  range : s.done = 0 ∨ s.done = 1 ∨ s.done = -1

structure Inv (mp : Maze) (start end_ : Rowcol) (s : St n) : Prop extends
    Listed mp start s, Pends mp s, Owns mp s, Outcome mp start end_ s where
  inside : s.outside = false
  loc : ∀ t, LocInv mp start end_ s (s.loc t)

variable {mp : Maze} {start end_ p q : Rowcol} {s s' : St n} {t u : Fin n} {l : Loc} {k vi : ℕ}

/-- A thread that has found the end has an entry that is there. -/
theorem LocInv.there_of_found (h : LocInv mp start end_ s l) (hf : l.Found end_) :
    ∃ vi, l.own = some vi ∧ vi ≤ s.vi := by
  cases l with
  | setDist vi p d | incVi vi p => exact ⟨vi, rfl, h.1⟩
  | storeRow vi p k | storeCol vi p k => exact ⟨vi, rfl, h.1.1⟩
  | setDone vi => exact ⟨vi, rfl, h.1.1⟩
  | stopped vi found => exact ⟨vi, rfl, (h hf).1⟩
  | _ => exact hf.elim

theorem LocInv.there_of_pending (h : LocInv mp start end_ s l) (hp : l.pending = some p) :
    ∃ vi, l.own = some vi ∧ vi ≤ s.vi := by
  cases l with
  | setDist vi p d | incVi vi p => exact ⟨vi, rfl, h.1⟩
  | _ => cases hp

namespace Inv

/-- All cells that are listed, and one that is about to be. -/
theorem room (h : Inv mp start end_ s) (hp : (s.loc t).pending = some p) : s.vi + 1 < mp.size := by
  obtain ⟨-, hin, hne⟩ := h.pend t p hp
  have hpos := hin
  unfold CellExists at hpos
  have hcells : (mp.cells.card : ℤ) = mp.nrows * mp.ncols := card_cells (by omega) (by omega)
  have hnot : p ∉ (Finset.range (s.vi + 1)).image s.cellOf := fun hm => by
    obtain ⟨k, hk, hkp⟩ := Finset.mem_image.mp hm
    exact hne k (Nat.lt_succ_iff.mp (Finset.mem_range.mp hk)) hkp
  have hcard : (insert p ((Finset.range (s.vi + 1)).image s.cellOf)).card = s.vi + 2 := by
    rw [Finset.card_insert_of_notMem hnot, Finset.card_image_of_injOn, Finset.card_range]
    intro i hi j hj he
    exact h.slot_inj i (by simpa [Nat.lt_succ_iff] using hi) j (by simpa [Nat.lt_succ_iff] using hj) he
  have hsub : insert p ((Finset.range (s.vi + 1)).image s.cellOf) ⊆ mp.cells := by
    refine Finset.insert_subset (mem_cells.mpr hin) fun q hq => ?_
    obtain ⟨k, hk, rfl⟩ := Finset.mem_image.mp hq
    exact mem_cells.mpr (h.slot k (Nat.lt_succ_iff.mp (Finset.mem_range.mp hk))).1
  have := Finset.card_le_card hsub
  rw [Maze.size]
  omega

/-- **When `n` entries behind the last one are claimed, it is over.** Each thread has one of
them, so no thread explores, or has found the end. -/
theorem all_wait (h : Inv mp start end_ s) (hvi : s.vi + n < s.claims) :
    Over mp start end_ s := by
  -- the owner of each of the `n` entries
  have howner : ∀ i : Fin n, ∃ t, (s.loc t).own = some (s.vi + 1 + i) := fun i => by
    rcases h.claimed (s.vi + 1 + i) (by omega) with ht | ⟨hle, -⟩
    · exact ht
    · omega
  choose f hf using howner
  have hinj : Function.Injective f := fun i j hij => by
    have hi := hf i
    rw [hij, hf j, Option.some.injEq] at hi
    exact Fin.ext (by omega)
  have hfar : ∀ t vi, (s.loc t).own = some vi → s.vi < vi := fun t vi ht => by
    obtain ⟨i, rfl⟩ := Finite.surjective_of_injective hinj t
    rw [hf i, Option.some.injEq] at ht
    omega
  have hnear : ∀ {t : Fin n}, ¬ ∃ vi, (s.loc t).own = some vi ∧ vi ≤ s.vi :=
    fun ⟨vi, ht, hle⟩ => absurd (hfar _ vi ht) (by omega)
  have hexp : ∀ k ≤ s.vi, Explored mp s (s.cellOf k) := fun k hk => by
    rcases h.claimed k (by omega) with ⟨t, ht⟩ | ⟨-, he⟩
    · exact absurd (hfar t k ht) (by omega)
    · exact he
  have hall : ∀ p, Reaches mp start p → s.bit p = true := fun p hp => by
    induction hp with
    | refl => exact h.first ▸ (h.slot 0 (Nat.zero_le _)).2
    | tail _ ho ih =>
      rcases h.cover _ ih with ⟨k, hk, rfl⟩ | ⟨t, ht⟩
      · exact hexp k hk _ ho
      · exact absurd ((h.loc t).there_of_pending ht) hnear
  refine ⟨hall, fun hr => ?_⟩
  obtain ⟨t, ht⟩ := h.found (hall end_ hr)
  exact hnear ((h.loc t).there_of_found ht)

end Inv

/-! ### What a step leaves as it is -/

/-- Nothing that was visited, listed or decided is lost. -/
structure Grows (s s' : St n) : Prop where
  vi : s.vi ≤ s'.vi
  bit : ∀ p, s.bit p = true → s'.bit p = true
  cellOf : ∀ k ≤ s.vi, s'.cellOf k = s.cellOf k
  col : ∀ k ≤ s.vi, 0 ≤ (s.visited k).2 → 0 ≤ (s'.visited k).2
  row : ∀ k ≤ s.vi, (s.visited k).1 = (s.cellOf k).1 → (s'.visited k).1 = (s.cellOf k).1
  done : s.done ≠ 0 → s'.done ≠ 0

theorem St.There.grows (h : s.There k) (hg : Grows s s') : s'.There k :=
  ⟨h.1.trans hg.vi, hg.col k h.1 h.2⟩

theorem Over.grows (h : Over mp start end_ s) (hg : Grows s s') : Over mp start end_ s' :=
  ⟨fun p hp => hg.bit p (h.1 p hp), h.2⟩

theorem Explored.grows (h : Explored mp s p) (hg : Grows s s') : Explored mp s' p :=
  fun q ho => hg.bit q (h q ho)

theorem Explores.grows {inner : Bool} (h : Explores mp s vi inner p) (hg : Grows s s') :
    Explores mp s' vi inner p :=
  ⟨h.there.grows hg, h.inside, hg.bit p h.bit, fun hi => (h.outer hi).trans
    (hg.cellOf vi h.there.1).symm⟩

/-- **What a thread knows stays true.** -/
theorem LocInv.grows (h : LocInv mp start end_ s l) (hg : Grows s s') :
    LocInv mp start end_ s' l := by
  cases l with
  | claim | check vi | waitVi vi | waitDone vi => trivial
  | giveUp vi => exact Over.grows h hg
  | waitCol vi => exact le_trans h hg.vi
  | ready vi => exact h.imp (·.grows hg) hg.done
  | readRow vi => exact St.There.grows h hg
  | readCol vi row => exact ⟨h.1.grows hg, h.2.trans (congrArg Prod.fst (hg.cellOf vi h.1.1)).symm⟩
  | dist vi inner cur => exact Explores.grows h hg
  | try_ vi inner cur d ps =>
    exact ⟨h.1.grows hg, fun hi q ho => (h.2 hi q ho).imp_right (hg.bit q)⟩
  | cas vi inner cur d p ps =>
    exact ⟨h.1.grows hg, h.2.1, fun hi q ho => (h.2.2 hi q ho).imp_right (hg.bit q)⟩
  | setDist vi p d | incVi vi p => exact St.There.grows h hg
  | storeRow vi p k =>
    exact ⟨h.1.grows hg, h.2.1.trans hg.vi, (hg.cellOf k h.2.1).trans h.2.2⟩
  | storeCol vi p k =>
    obtain ⟨h1, h2, rfl, h4⟩ := h
    exact ⟨h1.grows hg, h2.trans hg.vi, hg.cellOf k h2, hg.row k h2 h4⟩
  | setDone vi => exact ⟨h.1.grows hg, hg.bit end_ h.2⟩
  | stopped vi found => exact fun hf => (h hf).grows hg

theorem Listed.same (h : Listed mp start s) (hg : Grows s s') (hvi : s'.vi = s.vi)
    (hcell : s'.cellOf = s.cellOf) (hvis : s'.visited = s.visited) : Listed mp start s' where
  size := hvi ▸ h.size
  slot k hk := by
    rw [hcell]
    exact (h.slot k (hvi ▸ hk)).imp_right (hg.bit _)
  slot_inj k hk j hj he := h.slot_inj k (hvi ▸ hk) j (hvi ▸ hj) (by rwa [hcell] at he)
  first := by rw [hcell, h.first]
  filled k hk hc := by
    rw [hvis] at hc ⊢
    rw [hcell]
    exact h.filled k (hvi ▸ hk) hc
  empty k hk hlt := by
    rw [hvis]
    exact h.empty k hk (hvi ▸ hlt)

/-- The places after a step of `t`. -/
theorem forall_loc {P : Loc → Loc → Prop} (hloc : s'.loc = Function.update s.loc t l)
    (ht : P l (s.loc t)) (hu : ∀ l, P l l) (u : Fin n) : P (s'.loc u) (s.loc u) := by
  rw [hloc]
  by_cases h : u = t
  · subst h
    rw [Function.update_self]
    exact ht
  · rw [Function.update_of_ne h]
    exact hu _

theorem Pends.same (h : Pends mp s) (hbit : s'.bit = s.bit) (hvi : s'.vi = s.vi)
    (hcell : s'.cellOf = s.cellOf) (hloc : s'.loc = Function.update s.loc t l)
    (hl : l.pending = (s.loc t).pending) : Pends mp s' := by
  have hpend := forall_loc (P := fun l m => l.pending = m.pending) hloc hl fun _ => rfl
  refine ⟨fun u p hp => ?_, fun u v p hu hv => ?_, fun p hp => ?_⟩
  · rw [hpend] at hp
    rw [hbit, hvi, hcell]
    exact h.pend u p hp
  · exact h.pend_inj u v p (hpend u ▸ hu) (hpend v ▸ hv)
  · rw [hbit] at hp
    simp only [hvi, hcell, hpend]
    exact h.cover p hp

theorem Owns.same (h : Owns mp s) (hg : Grows s s') (hclaims : s'.claims = s.claims)
    (hloc : s'.loc = Function.update s.loc t l) (hl : l.own = (s.loc t).own) : Owns mp s' := by
  have hown := forall_loc (P := fun l m => l.own = m.own) hloc hl fun _ => rfl
  refine ⟨fun u k hk => ?_, fun u v k hu hv => ?_, fun k hk => ?_⟩
  · rw [hown] at hk
    exact hclaims ▸ h.own_lt u k hk
  · exact h.own_inj u v k (hown u ▸ hu) (hown v ▸ hv)
  · rw [hclaims] at hk
    rcases h.claimed k hk with ⟨u, hu⟩ | ⟨hle, he⟩
    · exact .inl ⟨u, (hown u).trans hu⟩
    · exact .inr ⟨hle.trans hg.vi, hg.cellOf k hle ▸ he.grows hg⟩

theorem Outcome.same (h : Outcome mp start end_ s) (hg : Grows s s') (hbit : s'.bit = s.bit)
    (hdone : s'.done = s.done) (hloc : s'.loc = Function.update s.loc t l)
    (hl : (s.loc t).Found end_ → l.Found end_) : Outcome mp start end_ s' := by
  refine ⟨fun p hp => h.reach p (hbit ▸ hp), fun hp => ?_, fun hd => (h.minus (hdone ▸ hd)).grows hg,
    fun hd => hbit ▸ h.one (hdone ▸ hd), hdone ▸ h.range⟩
  obtain ⟨u, hu⟩ := h.found (hbit ▸ hp)
  exact ⟨u, forall_loc (P := fun l m => m.Found end_ → l.Found end_) hloc hl (fun _ => id) u hu⟩

/-- The parts of the invariant after a step of `t`. -/
theorem Inv.of_step (h : Inv mp start end_ s) (hg : Grows s s')
    (hloc : s'.loc = Function.update s.loc t l) (hl : LocInv mp start end_ s' l)
    (hout : s'.outside = false) (hlist : Listed mp start s') (hpend : Pends mp s')
    (hown : Owns mp s') (hcome : Outcome mp start end_ s') : Inv mp start end_ s' := by
  refine { hlist, hpend, hown, hcome with inside := hout, loc := fun u => ?_ }
  rw [hloc]
  by_cases hu : u = t
  · subst hu
    rwa [Function.update_self]
  · rw [Function.update_of_ne hu]
    exact (h.loc u).grows hg

/-- A step that only goes on, and perhaps stores a distance. -/
theorem Inv.goes (h : Inv mp start end_ s) (hloc : s'.loc = Function.update s.loc t l)
    (hbit : s'.bit = s.bit) (hvis : s'.visited = s.visited) (hvi : s'.vi = s.vi)
    (hclaims : s'.claims = s.claims) (hdone : s'.done = s.done) (hcell : s'.cellOf = s.cellOf)
    (hout : s'.outside = false) (hown : l.own = (s.loc t).own)
    (hpend : l.pending = (s.loc t).pending) (hfound : (s.loc t).Found end_ → l.Found end_)
    (hl : LocInv mp start end_ s l) : Inv mp start end_ s' := by
  have hg : Grows s s' := ⟨hvi.ge, fun p hp => hbit ▸ hp, fun k _ => by rw [hcell],
    fun k _ hc => hvis ▸ hc, fun k _ hr => hvis ▸ hr, fun hd => hdone ▸ hd⟩
  exact h.of_step hg hloc (hl.grows hg) hout (h.toListed.same hg hvi hcell hvis)
    (h.toPends.same hbit hvi hcell hloc hpend) (h.toOwns.same hg hclaims hloc hown)
    (h.toOutcome.same hg hbit hdone hloc hfound)

end Fg
end Maze
end Perfbook
