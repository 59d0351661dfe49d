/-
# `maze_solve_start` leaves the threads ready

Whatever the strategy, `maze_solve_start` assigns one start after the other. So it preserves what one
`maze_solve_start_assign` preserves, a thread keeps the start it has, and the random starts come last, which leave no
thread without one. An ID that fits into the cookie touches neither the walls of the cell nor its mark, so walls that
agree on both sides still do. This is the state in which the threads begin to solve the maze (`Ready`).

Key definitions: `Unsolved`, `Prepared`.
Key theorems: `foldlM_keeps`, `Strategy.start_keeps`, `Prepared.step`, `solveStart_ready`.
-/
import Perfbook.Maze.Children
import Perfbook.Maze.StartFits

namespace Perfbook
namespace MazePart

open Maze (Rowcol Cell Rnd cookieMask)

variable {n t fuel : ℕ} {mp mp₀ mp' : MazePart} {p start end_ : Rowcol} {rnd rnd' : Rnd} {b : Bool}

/-! ### What is preserved by each start -/

theorem bind_ok {A B : Type} {x : Except Halt A} {f : A → Except Halt B} {y : B} (h : x >>= f = .ok y) :
    ∃ a, x = .ok a ∧ f a = .ok y := by
  cases x with
  | ok a => exact ⟨a, rfl, h⟩
  | error e => cases h

theorem foldlM_keeps {A S : Type} {Q : S → Prop} {f : S → A → Except Halt S}
    (hf : ∀ s a s', Q s → f s a = .ok s' → Q s') (l : List A) {s s' : S} (hs : Q s) (h : l.foldlM f s = .ok s') : Q s' := by
  induction l generalizing s with
  | nil =>
    obtain rfl := Except.ok.inj h
    exact hs
  | cons a l ih =>
    rw [List.foldlM_cons] at h
    obtain ⟨s₁, h₁, h⟩ := bind_ok h
    exact ih (hf s a s₁ hs h₁) h

section

variable {P : MazePart → Prop} (hP : ∀ mp t p b mp', P mp → startAssign n mp t p = .ok (b, mp') → P mp')
include hP

theorem assignOrAbort_keeps (h : P mp) (hrun : assignOrAbort n mp t p = .ok mp') : P mp' := by
  unfold assignOrAbort at hrun
  obtain ⟨⟨b, mp₁⟩, h₁, hrun⟩ := bind_ok hrun
  cases b with
  | true =>
    obtain rfl := Except.ok.inj hrun
    exact hP mp t p true mp₁ h h₁
  | false => cases hrun

theorem randomLoop_keeps (h : P mp) (hrun : randomLoop n t fuel mp rnd = .ok (mp', rnd')) : P mp' := by
  induction fuel generalizing mp rnd with
  | zero => cases hrun
  | succ fuel ih =>
    unfold randomLoop at hrun
    obtain ⟨⟨b, mp₁⟩, h₁, hrun⟩ := bind_ok hrun
    have hmp₁ := hP mp t _ b mp₁ h h₁
    cases b with
    | true =>
      obtain ⟨rfl, -⟩ := Prod.mk.inj (Except.ok.inj hrun)
      exact hmp₁
    | false => exact ih hmp₁ hrun

theorem startRandom_keeps (h : P mp) (hrun : startRandom n fuel mp rnd = .ok (mp', rnd')) : P mp' := by
  refine foldlM_keeps (Q := fun s : MazePart × Rnd => P s.1) (f := randomBody n fuel) (fun s i s' hs hi => ?_)
    (List.range n) h hrun
  unfold randomBody at hi
  split at hi
  · exact randomLoop_keeps hP hs hi
  · obtain rfl := Except.ok.inj hi
    exact hs

theorem stripe_keeps {place : ℤ → Except Halt Rowcol} (h : P mp) (hrun : stripe n place mp = .ok mp') : P mp' := by
  unfold stripe at hrun
  obtain ⟨⟨mp₁, i⟩, h₁, hrun⟩ := bind_ok hrun
  obtain rfl := Except.ok.inj hrun
  refine foldlM_keeps (Q := fun s : MazePart × ℤ => P s.1) (f := stripeBody n place) (fun s j s' hs hj => ?_)
    (List.range n) h h₁
  unfold stripeBody at hj
  split at hj
  · obtain rfl := Except.ok.inj hj
    exact hs
  · obtain ⟨p, -, hj⟩ := bind_ok hj
    obtain ⟨⟨b, mp₂⟩, h₂, hj⟩ := bind_ok hj
    obtain rfl := Except.ok.inj hj
    exact hP s.1 j p b mp₂ hs h₂

theorem spreadLoop_keeps {place : ℕ → Except Halt Rowcol} {m : ℕ} (h : P mp) (hrun : spreadLoop n place m mp = .ok mp') :
    P mp' := by
  refine foldlM_keeps (Q := P) (fun mp i mp₁ hmp hi => ?_) (List.range m) h hrun
  obtain ⟨p, -, hi⟩ := bind_ok hi
  obtain ⟨⟨b, mp₂⟩, h₂, hi⟩ := bind_ok hi
  obtain rfl := Except.ok.inj hi
  exact hP mp i p b mp₂ hmp h₂

/-- **A strategy** assigns starts, and the random ones last. -/
theorem Strategy.start_keeps (strategy : Strategy) (h : P mp) (hrun : strategy.start n fuel mp rnd = .ok (mp', rnd')) :
    ∃ mp₁, P mp₁ ∧ startRandom n fuel mp₁ rnd = .ok (mp', rnd') := by
  cases strategy with
  | antidiagonal | diagonal =>
    obtain ⟨mp₁, h₁, hrun⟩ := bind_ok hrun
    exact ⟨mp₁, stripe_keeps hP h h₁, hrun⟩
  | horizontal | vertical =>
    obtain ⟨half, -, hrun⟩ := bind_ok hrun
    obtain ⟨mp₁, h₁, hrun⟩ := bind_ok hrun
    exact ⟨mp₁, stripe_keeps hP h h₁, hrun⟩
  | spread =>
    obtain ⟨rowspread, -, hrun⟩ := bind_ok hrun
    obtain ⟨colspread, -, hrun⟩ := bind_ok hrun
    obtain ⟨rc, -, hrun⟩ := bind_ok hrun
    obtain ⟨mp₁, h₁, hrun⟩ := bind_ok hrun
    exact ⟨mp₁, spreadLoop_keeps hP h h₁, hrun⟩

end

/-! ### The state of the maze -/

/-- A maze before `maze_solve_start`: its walls agree on both sides, and nothing is left of another solution. -/
structure Unsolved (n : ℕ) (mp : MazePart) : Prop where
  fresh : Fresh n mp
  symm : mp.Symmetric
  distance : ∀ p, mp.CellExists p → mp.distance p = 0
  solution : ∀ p, mp.CellExists p → (mp.cell p).solution = false

/-- Some starts have been assigned since `mp₀`, and nothing else has changed. -/
structure Prepared (n : ℕ) (mp₀ mp : MazePart) : Prop where
  later : Later n mp₀ mp
  mcp : ∀ t, Has mp₀ t → mp.mcp t = mp₀.mcp t
  symm : mp.Symmetric
  distance : ∀ p, mp.CellExists p → (mp.cell p).visited = false → mp.distance p = 0
  solution : ∀ p, mp.CellExists p → (mp.cell p).solution = false
  listed : ∀ t < n, Has mp t → (mp.mcp t).vi = 1 ∧ (mp.mcp t).visited 0 = (mp.mcp t).start

theorem Unsolved.prepared (h : Unsolved n mp) : Prepared n mp mp where
  later := .refl h.fresh.started
  mcp _ _ := rfl
  symm := h.symm
  distance p hp _ := h.distance p hp
  solution := h.solution
  listed t ht hs := absurd (h.fresh.start t ht) hs

theorem Prepared.refl (h : Prepared n mp₀ mp) : Prepared n mp mp :=
  { h with
    later := .refl h.later.started
    mcp := fun _ _ => rfl }

theorem testBit_eq_false {i : ℕ} (ht : t ≤ cookieMask) (hi : 26 ≤ i) : t.testBit i = false := by
  refine Nat.testBit_lt_two_pow ?_
  calc t < 2 ^ 26 := by
        have : cookieMask = 2 ^ 26 - 1 := by decide
        omega
    _ ≤ 2 ^ i := Nat.pow_le_pow_right (by decide) hi

/-- An ID that fits into the cookie is in no other bit. -/
theorem orTid_bits (c : Cell) (ht : t ≤ cookieMask) : (orTid c t).wall = c.wall ∧ (orTid c t).solution = c.solution := by
  have hwall : ∀ d, 26 ≤ wallBit d := fun d => by cases d <;> decide
  refine ⟨funext fun d => ?_, ?_⟩
  · show (c.wall d || t.testBit (wallBit d)) = c.wall d
    rw [testBit_eq_false ht (hwall d), Bool.or_false]
  · show (c.solution || t.testBit 26) = c.solution
    rw [testBit_eq_false ht le_rfl, Bool.or_false]

/-- The walls and the marks of all cells stay. -/
theorem assign_bits (ht : t ≤ cookieMask) (q : Rowcol) :
    ((mp.assign t p).cell q).wall = (mp.cell q).wall ∧ ((mp.assign t p).cell q).solution = (mp.cell q).solution := by
  by_cases hq : q = p
  · subst hq
    rw [assign_cell_self]
    exact orTid_bits (mp.cell q) ht
  · rw [assign_cell_ne hq]
    exact ⟨rfl, rfl⟩

theorem Prepared.assign (h : Prepared n mp₀ mp) (hids : n ≤ cookieMask + 1) (ht : t < n) (hp : mp.CellExists p)
    (hfree : (mp.cell p).visited = false) (hno : ¬ Has mp t) : Prepared n mp₀ (mp.assign t p) where
  later := h.later.trans (h.later.started.later_assign ht hp hfree hno)
  mcp u hu := by
    have hut : u ≠ t := fun he => hno (he ▸ h.later.keep u hu)
    rw [assign_mcp_ne hut]
    exact h.mcp u hu
  symm q d hq hq' := by
    rw [(assign_bits (by omega) q).1, (assign_bits (by omega) _).1]
    exact h.symm q d hq hq'
  distance q hq hv := by
    have hqp : q ≠ p := by
      rintro rfl
      rw [assign_cell_self] at hv
      cases hv
    rw [assign_cell_ne hqp] at hv
    rw [assign_distance_ne hqp]
    exact h.distance q hq hv
  solution q hq := by
    rw [(assign_bits (by omega) q).2]
    exact h.solution q hq
  listed u hu hs := by
    by_cases hut : u = t
    · subst hut
      simp [MazePart.assign, setStart]
    · rw [assign_mcp_ne hut]
      exact h.listed u hu ((has_assign_ne hut).mp hs)

/-- **One start** leaves the maze prepared. -/
theorem Prepared.step (h : Prepared n mp₀ mp) (hids : n ≤ cookieMask + 1) (hrun : startAssign n mp t p = .ok (b, mp')) :
    Prepared n mp₀ mp' := by
  by_cases hout : ¬ mp.CellExists p ∨ n ≤ t
  · rw [startAssign, if_pos hout] at hrun
    cases hrun
  · rw [not_or, not_not, not_le] at hout
    obtain ⟨hp, ht⟩ := hout
    rw [startAssign_eq ht hp] at hrun
    split at hrun
    · obtain ⟨-, rfl⟩ := Prod.mk.inj (Except.ok.inj hrun)
      exact h
    · rename_i hno
      obtain ⟨-, rfl⟩ := Prod.mk.inj (Except.ok.inj hrun)
      rw [not_or, Bool.not_eq_true] at hno
      exact h.assign hids ht hp hno.1 hno.2

/-- A start that was assigned is that of the thread. -/
theorem assignOrAbort_start (hrun : assignOrAbort n mp t p = .ok mp') : Has mp' t ∧ (mp'.mcp t).start = p := by
  unfold assignOrAbort at hrun
  obtain ⟨⟨b, mp₁⟩, h₁, hrun⟩ := bind_ok hrun
  cases b with
  | false => cases hrun
  | true =>
    obtain rfl := Except.ok.inj hrun
    by_cases hout : ¬ mp.CellExists p ∨ n ≤ t
    · rw [startAssign, if_pos hout] at h₁
      cases h₁
    · rw [not_or, not_not, not_le] at hout
      rw [startAssign_eq hout.2 hout.1] at h₁
      split at h₁
      · cases h₁
      · obtain ⟨-, rfl⟩ := Prod.mk.inj (Except.ok.inj h₁)
        exact ⟨has_assign_self hout.1, assign_mcp_self ..⟩

/-! ### All starts -/

/-- **When `maze_solve_start` returns, the threads are ready.** -/
theorem solveStart_ready (strategy : Strategy) (h : Unsolved n mp) (hids : n ≤ cookieMask + 1) (hs : mp.CellExists start)
    (hrun : solveStart strategy n fuel mp start end_ rnd = .ok mp') : Children.Ready n mp' end_ := by
  have hstep : ∀ {mp₀} mp t p b mp', Prepared n mp₀ mp → startAssign n mp t p = .ok (b, mp') → Prepared n mp₀ mp' :=
    fun _ _ _ _ _ hprep h₁ => hprep.step hids h₁
  unfold solveStart at hrun
  obtain ⟨mp₁, h₁, hrun⟩ := bind_ok hrun
  obtain ⟨mp₂, h₂, hrun⟩ := bind_ok hrun
  obtain ⟨⟨mp₃, rnd'⟩, h₃, hrun⟩ := bind_ok hrun
  obtain rfl := Except.ok.inj hrun
  have hprep₁ : Prepared n mp mp₁ := assignOrAbort_keeps hstep h.prepared h₁
  have htwo : Prepared n mp mp₂ ∧ (1 < n → Has mp₂ 1 ∧ (mp₂.mcp 1).start = end_) := by
    unfold assignEnd at h₂
    split at h₂
    · exact ⟨assignOrAbort_keeps hstep hprep₁ h₂, fun _ => assignOrAbort_start h₂⟩
    · rename_i hn
      obtain rfl := Except.ok.inj h₂
      exact ⟨hprep₁, fun hn' => absurd hn' hn⟩
  obtain ⟨hprep₂, hend⟩ := htwo
  -- since the first two starts, other threads got theirs
  obtain ⟨mp₄, hprep₄, hrandom⟩ := strategy.start_keeps hstep hprep₂.refl h₃
  have hprep : Prepared n mp₂ mp₃ := startRandom_keeps hstep hprep₄ hrandom
  have hrows : mp₄.nrows = mp.nrows := hprep₄.later.nrows.trans hprep₂.later.nrows
  have hcols : mp₄.ncols = mp.ncols := hprep₄.later.ncols.trans hprep₂.later.ncols
  obtain ⟨hr0, hr, hc0, hc⟩ := hs
  have hall : ∀ t < n, Has mp₃ t := by
    obtain hfuel | ⟨mp₅, rnd₅, hrun, -, hall⟩ :=
      startRandom_spec hprep₄.later.started (by rw [hrows]; omega) (by rw [hcols]; omega) fuel rnd
    · rw [hrandom] at hfuel
      cases hfuel
    · rw [hrandom] at hrun
      obtain ⟨rfl, -⟩ := Prod.mk.inj (Except.ok.inj hrun)
      exact hall
  have hstarted := hprep.later.started
  exact
    { symm := hprep.symm
      ids := hids
      started := (hstarted.allStarted hall).mpr hids
      end_ := fun hn => by rw [hprep.mcp 1 (hend hn).1, (hend hn).2]
      only := fun p hp hv => (hstarted.thread p hp hv).imp fun _ ht => ⟨ht.1, ht.2.2⟩
      cookie := hstarted.cookie
      distance := hprep.distance
      solution := hprep.solution
      listed := fun t ht => hprep.listed t ht (hall t ht) }

example : ∃ mp, solveStart .horizontal 3 0 corridor (0, 0) (0, 4) (fun _ => 0) = .ok mp := ⟨_, rfl⟩

end MazePart
end Perfbook
