/-
# What the threads that solve a maze in partitions leave behind

When all threads have returned they have left what the route and the stitching of the solution rest on
(`children_partition`): partitions in which the distances lead back to the starts, encounters of adjacent cells, and
encounters from partition 0 to the end if and only if the end can be reached.

With three threads or more they only return once `done` is set, and it is the news of what each can see that sets
it. The news of a thread that was met is not lost: as long as one of two threads that have met can see a goal and
the other cannot, there is a thread that has not told it yet (`Loc.Owes`, `Told`). So when no thread has
anything left to explore or to tell, `done` is set if and only if the end can be reached (`quiet_done_iff`).

Key definitions: `Loc.Owes`, `Loc.Tests`, `Told`, `Quiet`.
Key theorems: `Inv.part_reach`, `Inv.solved_of_reach`, `told_next`, `children_partition`, `quiet_done_iff`.
-/
import Perfbook.Maze.ChildrenStep

namespace Perfbook
namespace MazePart
namespace Children

open Maze (Rowcol Cell)
open Maze.Fg (Reaches)
open Relation (ReflTransGen)

variable {n : ℕ} {mp m : MazePart} {end_ p q cur : Rowcol} {s s' : St n} {t u x y : Fin n} {l l' : Loc n} {g : Goal}
  {a b i : ℕ}

/-! ### The partitions -/

theorem reaches_symm (hsymm : mp.Symmetric) (h : Reaches mp.toMaze p q) : Reaches mp.toMaze q p := by
  have : Std.Symm mp.toMaze.Opens := ⟨fun _ _ ho => ho.symm hsymm⟩
  exact ReflTransGen.stdSymm.symm _ _ h

namespace Inv

variable (h : Inv mp end_ s) (hfree : ∀ t, (s.loc t).Free)
include h

theorem lt_of_part (hp : InPart s.mp a p) : a < n := hp.2.2 ▸ h.base.owner p (h.base.exists_iff.mp hp.1) hp.2.1

include hfree

/-- A cell of a thread was visited from one that is nearer to its start. -/
theorem prev (hp : InPart s.mp t p) (hps : p ≠ (mp.mcp t).start) :
    ∃ q, InPart s.mp t q ∧ mp.Opens p q ∧ s.mp.distance p = s.mp.distance q + 1 := by
  rcases (h.of t).prev p hp hps with hun | ⟨q, hq, ho, hd⟩
  · rw [(hfree t).2.1] at hun
    cases hun
  · exact ⟨q, (h.of t).mine q hq, ho, hd⟩

theorem encounter (x : Fin n) (b : ℕ) : s.adj x b = .unset ∨ Encounter s.mp x b (s.adj x b) := by
  refine ((h.of x).met b).imp_right fun hm => hm.resolve_right fun hrec => ?_
  rw [(hfree x).2.2] at hrec
  cases hrec

/-- The distances lead back to the start of the thread. -/
theorem part_reach (hsymm : mp.Symmetric) (hp : InPart s.mp t p) : Reaches mp.toMaze (mp.mcp t).start p := by
  induction hd : s.mp.distance p using Nat.strong_induction_on generalizing p with
  | _ d ih =>
    by_cases hps : p = (mp.mcp t).start
    · rw [hps]
      exact .refl
    · obtain ⟨q, hq, ho, hdist⟩ := h.prev hfree hp hps
      exact (ih (s.mp.distance q) (by omega) hq rfl).tail (ho.symm hsymm)

/-- An encounter of adjacent cells connects the starts of two threads. -/
theorem met_reach (hsymm : mp.Symmetric) (hm : (s.adj x y).mr ≠ -1) :
    Reaches mp.toMaze (mp.mcp x).start (mp.mcp y).start := by
  have henc := (h.encounter hfree x y).resolve_left fun hun => hm (by rw [hun]; rfl)
  calc
    ReflTransGen mp.toMaze.Opens (mp.mcp x).start (s.adj x y).m := h.part_reach hfree hsymm henc.mine
    ReflTransGen mp.toMaze.Opens _ (s.adj x y).t := .single (h.base.opens_iff.mp henc.opens)
    ReflTransGen mp.toMaze.Opens _ (mp.mcp y).start := reaches_symm hsymm (h.part_reach hfree hsymm henc.theirs)

theorem route_reach (hsymm : mp.Symmetric) (hr : ReflTransGen (Met n s.adj) a b) :
    Reaches mp.toMaze (mp.mcp a).start (mp.mcp b).start := by
  induction hr with
  | refl => exact .refl
  | @tail x y _ hm ih =>
    obtain ⟨hx, hy, hm⟩ := hm
    refine ih.trans ?_
    rcases hm with hm | hm
    · exact h.met_reach (x := ⟨x, hx⟩) (y := ⟨y, hy⟩) hfree hsymm hm
    · exact reaches_symm hsymm (h.met_reach (x := ⟨y, hy⟩) (y := ⟨x, hx⟩) hfree hsymm hm)

theorem reach_of_solved (hsymm : mp.Symmetric) (hs : Solved s end_) : Reaches mp.toMaze (mp.mcp 0).start end_ := by
  obtain ⟨a, ha, hr⟩ := hs
  exact (h.route_reach hfree hsymm hr).trans (h.part_reach (t := ⟨a, h.lt_of_part ha⟩) hfree hsymm ha)

/-- **What can be reached was visited**, by a thread to which encounters lead, when no thread has anything left to
explore. -/
theorem solved_of_reach (hn : 1 ≤ n) (hall : ∀ t, Explored mp s t (s.mp.mcp t).vi)
    (hr : Reaches mp.toMaze (mp.mcp 0).start p) : Solved s p := by
  induction hr with
  | refl => exact ⟨0, (h.of ⟨0, hn⟩).start, .refl⟩
  | @tail p q _ ho ih =>
    obtain ⟨a, ha, hroute⟩ := ih
    have hlt := h.lt_of_part ha
    obtain ⟨i, hi, rfl⟩ : Listed s ⟨a, hlt⟩ p := ((h.of ⟨a, hlt⟩).cover p ha).resolve_right fun he => by
      rw [(hfree _).1] at he
      cases he
    obtain ⟨b, hb, hmet⟩ := hall ⟨a, hlt⟩ i hi q ho
    rcases hmet with he | hmet
    · exact ⟨b, hb, by rwa [he]⟩
    · exact ⟨b, hb, hroute.tail ⟨hlt, h.lt_of_part hb, .inl hmet⟩⟩

/-- When no thread needs to go on. -/
theorem solved_iff (hsymm : mp.Symmetric) (hn : 1 ≤ n) (hover : ∀ t, Over mp s t) :
    Solved s end_ ↔ Reaches mp.toMaze (mp.mcp 0).start end_ := by
  refine ⟨h.reach_of_solved hfree hsymm, fun hr => ?_⟩
  cases hd : s.done with
  | true => exact h.solved hd
  | false => exact h.solved_of_reach hfree hn (fun t => (hover t).resolve_left (by rw [hd]; exact nofun)) hr

theorem partitioned (hr : Ready n mp end_) : Partitioned n (fun t => (mp.mcp t).start) s.mp where
  symm p d hp hq := by
    rw [h.base.wall, h.base.wall]
    exact hr.symm p d (h.base.exists_iff.mp hp) (h.base.exists_iff.mp hq)
  first t ht := ⟨(h.of ⟨t, ht⟩).start, (h.of ⟨t, ht⟩).one⟩
  prev t ht p hp hps := by
    obtain ⟨q, hq, ho, hd⟩ := h.prev (t := ⟨t, ht⟩) hfree hp hps
    exact ⟨q, hq, h.base.opens_iff.mpr ho, hd⟩
  fresh p hp hv := (h.base.fresh p (h.base.exists_iff.mp hp) hv).2

end Inv

theorem inv_reach (hr : Ready n mp end_) (h : (sys n mp end_).Reach Conc.Sys.always s) : Inv mp end_ s :=
  h.inv (I := Inv mp end_) (fun _ h0 => inv_init hr h0) fun _ _ _ hi _ hn => inv_next hr hi hn

/-- **The threads leave partitions of the maze.** In every reachable state each thread that has not returned can take
its next step, without an `ABORT` or an access outside of an array. When all have returned, each cell of a thread
leads back to its start by cells of its own, each entry of `adj[]` is of two adjacent cells without a wall between
them, and encounters lead from partition 0 to that of the end if and only if the end can be reached from the start.
Three threads or more only return if it can. -/
theorem children_partition (n : ℕ) (mp : MazePart) (end_ : Rowcol) (hr : Ready n mp end_) (hn : 1 ≤ n) (s : St n)
    (h : (sys n mp end_).Reach Conc.Sys.always s) :
    (∀ t, s.loc t ≠ .returned → ∃ s', (sys n mp end_).next t s = some s') ∧
    ((∀ t, s.loc t = .returned) →
      Partitioned n (fun t => (mp.mcp t).start) s.mp ∧
      (∀ a < n, ∀ b < n, s.adj a b = .unset ∨ Encounter s.mp a b (s.adj a b)) ∧
      (∀ p, s.mp.CellExists p → (s.mp.cell p).solution = false) ∧
      (Solved s end_ ↔ Reaches mp.toMaze (mp.mcp 0).start end_) ∧
      (2 < n → Reaches mp.toMaze (mp.mcp 0).start end_)) := by
  have hi := inv_reach hr h
  refine ⟨fun t ht => hi.can_step ht, fun hall => ?_⟩
  have hfree : ∀ t, (s.loc t).Free := fun t => by
    rw [hall]
    exact ⟨rfl, rfl, rfl⟩
  have hret : ∀ t, Over mp s t ∧ (2 < n → s.done = true) := fun t => (hi.at_ (hall t)).loc
  have hiff := hi.solved_iff hfree hr.symm hn fun t => (hret t).1
  refine ⟨hi.partitioned hfree hr, fun a ha b _ => hi.encounter hfree ⟨a, ha⟩ b, fun p hp => ?_, hiff, fun h2 => ?_⟩
  · rw [hi.base.solution]
    exact hr.solution p (hi.base.exists_iff.mp hp)
  · exact hiff.mp (hi.solved ((hret ⟨0, hn⟩).2 h2))

/-! ### The news -/

/-- After `maze_solve_propagate` the thread still tells `y` what `x` can see. -/
def Cont.Owes (t : Fin n) : Cont n → Fin n → Fin n → Prop
  | .meet _ false j, x, y => x = j ∧ y = t
  | .meet _ true _, _, _ => False
  | .check _ i, x, y => x = t ∧ i < y

/-- Thread `t` is about to tell `y` whether `x` can see the goal. -/
def Loc.Owes (adj : Adj) (t : Fin n) : Loc n → Goal → Fin n → Fin n → Prop
  | .setRest _ _ j, _, x, y | .setDone _ j, _, x, y => x = t ∧ y = j ∨ x = j ∧ y = t
  | .look g' a b k, g, x, y | .tell g' a b k, g, x, y =>
      x = a ∧ y = b ∧ (g' = .start ∨ g = .finish) ∨ k.Owes t x y
  | .both g' a b k, g, x, y | .found g' a b k, g, x, y =>
      x = a ∧ y = b ∧ g' = .start ∧ g = .finish ∨ k.Owes t x y
  | .snapshot _ _ need, _, x, _ => x = t ∧ need = true
  | .mine _ i, _, x, y => x = t ∧ i ≤ y
  | .theirs _ i, _, x, y => x = t ∧ (i < y ∨ i = y ∧ (adj y t).mr ≠ -1)
  | _, _, _, _ => False

/-- The thread has told `y`, and is about to look whether it can see both. -/
def Loc.Tests : Loc n → Fin n → Prop
  | .both _ _ b _, y | .found _ _ b _, y => y = b
  | _, _ => False

/-- No news is lost. -/
structure Told (s : St n) : Prop where
  root : ∀ g (t : Fin n), t.val = g.root → s.see g t = true
  snap : ∀ g t, s.snap g t = true → s.see g t = true
  news : ∀ g (x y : Fin n), Met n s.adj x y → s.see g x = true →
    s.see g y = true ∨ s.snap g x = false ∨ ∃ t, (s.loc t).Owes s.adj t g x y
  both : ∀ y, s.see .start y = true → s.see .finish y = true → s.done = true ∨ ∃ t, (s.loc t).Tests y

/-- A goal that is still to be handled after `g`. -/
theorem later_goal {g' : Goal} (hne : g' ≠ g) (h : g = .start ∨ g' = .finish) : g = .start ∧ g' = .finish := by
  cases g with
  | start =>
    cases g' with
    | start => exact absurd rfl hne
    | finish => exact ⟨rfl, rfl⟩
  | finish => exact absurd (h.resolve_left nofun) hne

theorem owes_checkFrom {o : Option ℕ} {adj : Adj} (hi : i ≤ y) : (checkFrom o i).Owes adj t g t y := by
  refine Conc.scan_rec (P := fun l : Loc n => l.Owes adj t g t y) (fun v hv => ⟨rfl, ?_⟩) fun hn => absurd y.isLt (by omega)
  exact Fin.le_def.mpr (by omega)

theorem owes_resume {o : Cont n} {adj : Adj} (h : o.Owes t x y) : (resume t o).Owes adj t g x y := by
  cases o with
  | meet c second j =>
    cases second with
    | false => exact .inl ⟨h.1, h.2, .inl rfl⟩
    | true => exact h.elim
  | check o i =>
    obtain ⟨rfl, hlt⟩ := h
    exact owes_checkFrom (Fin.lt_def.mp hlt)

theorem owes_nextGoal {o : Cont n} {adj : Adj} {a b : Fin n} {g' : Goal}
    (h : x = a ∧ y = b ∧ g' = .start ∧ g = .finish ∨ o.Owes t x y) : (nextGoal t a b o g').Owes adj t g x y := by
  cases g' with
  | start => exact h.imp_left fun h => ⟨h.1, h.2.1, .inr h.2.2.2⟩
  | finish => exact owes_resume (h.resolve_left nofun)

theorem owes_nextSnapshot {o : Option ℕ} {adj : Adj} (g' : Goal) : (nextSnapshot o true g').Owes adj t g t y := by
  cases g' with
  | start => exact ⟨rfl, rfl⟩
  | finish => exact owes_checkFrom (Nat.zero_le _)

/-- What a thread owes it owes as long as it stays there. -/
theorem Loc.Owes.mono {adj adj' : Adj} (hadj : ∀ a b, (adj a b).mr ≠ -1 → (adj' a b).mr ≠ -1)
    (h : l.Owes adj t g x y) : l.Owes adj' t g x y := by
  cases l with
  | theirs o i => exact ⟨h.1, h.2.imp_right fun h => ⟨h.1, hadj _ _ h.2⟩⟩
  | _ => exact h

/-- What the others owe they still owe when `t` has gone on. -/
theorem owes_goes {adj' : Adj} (hloc : s'.loc = Function.update s.loc t l') (hs : s.loc t = l)
    (hadj : ∀ a b, (s.adj a b).mr ≠ -1 → (adj' a b).mr ≠ -1)
    (hl : l.Owes s.adj t g x y → l'.Owes adj' t g x y) (h : ∃ u, (s.loc u).Owes s.adj u g x y) :
    ∃ u, (s'.loc u).Owes adj' u g x y := by
  obtain ⟨u, hu⟩ := h
  refine ⟨u, ?_⟩
  by_cases hut : u = t
  · subst hut
    rw [Conc.update_self hloc]
    exact hl (hs ▸ hu)
  · rw [Conc.update_ne hloc hut]
    exact hu.mono hadj

theorem tests_goes (hloc : s'.loc = Function.update s.loc t l') (hs : s.loc t = l)
    (hl : l.Tests y → l'.Tests y) (h : ∃ u, (s.loc u).Tests y) : ∃ u, (s'.loc u).Tests y := by
  obtain ⟨u, hu⟩ := h
  refine ⟨u, ?_⟩
  by_cases hut : u = t
  · subst hut
    rw [Conc.update_self hloc]
    exact hl (hs ▸ hu)
  · rwa [Conc.update_ne hloc hut]

namespace Told

variable (h : Told s)
include h

/-- A step of `t` after which the news is as it was, but for what `t` owes. -/
theorem goes (hs : s.loc t = l) (hloc : s'.loc = Function.update s.loc t l') (hadj : ∀ a b, (s'.adj a b).mr = (s.adj a b).mr)
    (hsee : s'.see = s.see) (hsnap : s'.snap = s.snap) (hdone : s.done = true → s'.done = true)
    (howe : ∀ g (x y : Fin n), Met n s.adj x y → s.see g x = true → l.Owes s.adj t g x y →
      s.see g y = true ∨ l'.Owes s.adj t g x y)
    (htest : ∀ y, s.see .start y = true → s.see .finish y = true → l.Tests y → s'.done = true ∨ l'.Tests y) :
    Told s' where
  root := by
    rw [hsee]
    exact h.root
  snap := by
    rw [hsee, hsnap]
    exact h.snap
  news g x y hm hx := by
    have hmono : ∀ a b, (s.adj a b).mr ≠ -1 → (s'.adj a b).mr ≠ -1 := fun a b hab => by rwa [hadj]
    unfold Met at hm
    rw [hadj, hadj] at hm
    rw [hsee] at hx
    rw [hsee, hsnap]
    by_cases hy : s.see g y = true
    · exact .inl hy
    · refine .inr (((h.news g x y hm hx).resolve_left hy).imp_right (owes_goes hloc hs hmono fun ho => ?_))
      exact ((howe g x y hm hx ho).resolve_left hy).mono hmono
  both y h1 h2 := by
    rw [hsee] at h1 h2
    by_cases hd : s'.done = true
    · exact .inl hd
    · refine ((h.both y h1 h2).imp hdone (tests_goes hloc hs fun ho => ?_))
      exact (htest y h1 h2 ho).resolve_left hd

end Told

/-- The places at which a step leaves `adj[]` and what the threads can see as it is. -/
def Loc.Idle : Loc n → Prop
  | .dist _ _ _ | .try_ _ | .read _ _ | .cas _ _ _ | .setDist _ _ | .extend _ _ | .onward _ _ | .nextCell _ | .tid _ _
  | .readDone _ | .returned => True
  | _ => False

theorem step_idle (hn : stepThread end_ t s = some s') (hl : (s.loc t).Idle) :
    s'.adj = s.adj ∧ s'.see = s.see ∧ s'.snap = s.snap ∧ (s.done = true → s'.done = true) ∧
      ∃ l', s'.loc = Function.update s.loc t l' := by
  unfold stepThread at hn
  split at hn <;> try simp only [Option.bind_eq_bind, Option.bind_eq_some_iff] at hn
  all_goals grind [St.goto, Loc.Idle, Option.bind_eq_some_iff]

theorem Loc.Idle.not_owes {adj : Adj} (hl : l.Idle) : ¬ l.Owes adj t g x y := by
  cases l <;> first
    | exact hl.elim
    | exact id

theorem Loc.Idle.not_tests (hl : l.Idle) : ¬ l.Tests y := by
  cases l <;> first
    | exact hl.elim
    | exact id

/-- The thread that records an encounter is about to tell of it. -/
theorem Told.meets {c : Call} {j : Fin n} (h : Told s) (hs : s.loc t = .setMr c p j) {e : Rowcolpair}
    (hmr : e.mr ≠ -1) : Told ({ s with adj := s.adj.set t j e }.goto t (.setRest c p j)) := by
  set s' := ({ s with adj := s.adj.set t j e }.goto t (.setRest c p j)) with hs'
  have hloc : s'.loc = Function.update s.loc t (.setRest c p j) := rfl
  have hother : ∀ {a b : ℕ}, (a, b) ≠ (t.val, j.val) → s'.adj a b = s.adj a b := fun hab => Adj.set_other _ _ hab
  have hadj : ∀ a b, (s.adj a b).mr ≠ -1 → (s'.adj a b).mr ≠ -1 := fun a b hab => by
    by_cases heq : (a, b) = (t.val, j.val)
    · obtain ⟨rfl, rfl⟩ := Prod.ext_iff.mp heq
      rw [show s'.adj t j = e from Adj.set_same ..]
      exact hmr
    · rw [hother heq]
      exact hab
  refine ⟨h.root, h.snap, fun g x y hm hx => ?_,
    fun y h1 h2 => (h.both y h1 h2).imp_right (tests_goes hloc hs False.elim)⟩
  by_cases hnew : x = t ∧ y = j ∨ x = j ∧ y = t
  · refine .inr (.inr ⟨t, ?_⟩)
    rw [Conc.update_self hloc]
    exact hnew
  · have hold : Met n s.adj x y := by
      refine ⟨x.isLt, y.isLt, hm.2.2.imp (fun hxy => ?_) fun hxy => ?_⟩
      · rwa [hother fun heq => hnew (.inl ⟨Fin.ext (Prod.ext_iff.mp heq).1, Fin.ext (Prod.ext_iff.mp heq).2⟩)] at hxy
      · rwa [hother fun heq => hnew (.inr ⟨Fin.ext (Prod.ext_iff.mp heq).2, Fin.ext (Prod.ext_iff.mp heq).1⟩)] at hxy
    exact (h.news g x y hold hx).imp_right fun ho => ho.imp_right (owes_goes hloc hs hadj False.elim)

/-- A thread has been told: it has not looked at its snapshot since, and the one that told it looks whether it can see
both. -/
theorem Told.tells {a b : Fin n} {o : Cont n} (h : Told s) (hs : s.loc t = .tell g a b o) :
    Told ({ s with see := setGoal s.see g b true }.goto t (.both g a b o)) := by
  set s' := ({ s with see := setGoal s.see g b true }.goto t (.both g a b o)) with hs'
  have hloc : s'.loc = Function.update s.loc t (.both g a b o) := rfl
  have hsee : ∀ g' u, s'.see g' u = true ↔ s.see g' u = true ∨ g' = g ∧ u = b := fun g' u => by
    by_cases hg : g' = g
    · subst hg
      by_cases hub : u = b <;> simp [hs', St.goto, setGoal, hub]
    · simp [hs', St.goto, setGoal, hg]
  refine ⟨fun g' u hr => (hsee g' u).mpr (.inl (h.root g' u hr)),
    fun g' u hsnap => (hsee g' u).mpr (.inl (h.snap g' u hsnap)), fun g' x y hm hx => ?_, fun y h1 h2 => ?_⟩
  · by_cases hold : s.see g' x = true
    · rcases h.news g' x y hm hold with hy | hx' | ho
      · exact .inl ((hsee g' y).mpr (.inl hy))
      · exact .inr (.inl hx')
      · by_cases hnow : y = b ∧ g' = g
        · exact .inl ((hsee g' y).mpr (.inr ⟨hnow.2, hnow.1⟩))
        · refine .inr (.inr (owes_goes hloc hs (fun _ _ => id) (fun ho => ?_) ho))
          refine ho.imp_left fun ho => ⟨ho.1, ho.2.1, ?_⟩
          exact later_goal (fun he => hnow ⟨ho.2.1, he⟩) ho.2.2
    · -- `b` has not seen the goal before, so it has no snapshot of it
      obtain ⟨rfl, rfl⟩ := ((hsee g' x).mp hx).resolve_left hold
      refine .inr (.inl ?_)
      rw [← Bool.not_eq_true]
      exact fun hsnap => hold (h.snap g' x hsnap)
  · by_cases hyb : y = b
    · refine .inr ⟨t, ?_⟩
      rw [Conc.update_self hloc]
      exact hyb
    · have hold : ∀ {g'}, s'.see g' y = true → s.see g' y = true :=
        fun hy => ((hsee _ y).mp hy).resolve_right fun hgb => hyb hgb.2
      exact (h.both y (hold h1) (hold h2)).imp_right (tests_goes hloc hs False.elim)

/-- A thread takes its snapshot: what is new it passes on. -/
theorem Told.snapshots {o : Option ℕ} {need : Bool} (h : Told s) (hs : s.loc t = .snapshot g o need) :
    Told ({ s with snap := setGoal s.snap g t (s.snap g t || s.see g t) }.goto t
      (nextSnapshot o (need || !s.snap g t && s.see g t) g)) := by
  set l' : Loc n := nextSnapshot o (need || !s.snap g t && s.see g t) g with hl'
  set s' := ({ s with snap := setGoal s.snap g t (s.snap g t || s.see g t) }.goto t l') with hs'
  have hloc : s'.loc = Function.update s.loc t l' := rfl
  have hsnap : ∀ g' u, s'.snap g' u = true ↔ s.snap g' u = true ∨ g' = g ∧ u = t ∧ s.see g t = true :=
    fun g' u => by
      by_cases hg : g' = g
      · subst hg
        by_cases hut : u = t <;> simp [hs', St.goto, setGoal, hut]
      · simp [hs', St.goto, setGoal, hg]
  have howe : ∀ {g' y}, (need || !s.snap g t && s.see g t) = true → l'.Owes s.adj t g' t y := fun hneed => by
    rw [hl', hneed]
    exact owes_nextSnapshot g
  refine ⟨h.root, fun g' u hu => ?_, fun g' x y hm hx => ?_,
    fun y h1 h2 => (h.both y h1 h2).imp_right (tests_goes hloc hs False.elim)⟩
  · rcases (hsnap g' u).mp hu with hu | ⟨rfl, rfl, hu⟩
    · exact h.snap g' u hu
    · exact hu
  · rcases h.news g' x y hm hx with hy | hx' | ho
    · exact .inl hy
    · by_cases hnew : g' = g ∧ x = t
      · obtain ⟨rfl, rfl⟩ := hnew
        refine .inr (.inr ⟨x, ?_⟩)
        rw [Conc.update_self hloc]
        have hx : s.see g' x = true := hx
        exact howe (by rw [hx', hx]; simp)
      · refine .inr (.inl ?_)
        rw [← Bool.not_eq_true, hsnap, not_or, hx']
        exact ⟨Bool.false_ne_true, fun hg => hnew ⟨hg.1, hg.2.1⟩⟩
    · refine .inr (.inr (owes_goes hloc hs (fun _ _ => id) (fun ho => ?_) ho))
      obtain ⟨rfl, rfl⟩ := ho
      exact howe rfl

/-- **A step of a thread loses no news.** -/
theorem told_next (hi : Inv mp end_ s) (h : Told s) (hn : stepThread end_ t s = some s') : Told s' := by
  by_cases hidle : (s.loc t).Idle
  · obtain ⟨hadj, hsee, hsnap, hdone, l', hloc⟩ := step_idle hn hidle
    exact h.goes rfl hloc (fun _ _ => by rw [hadj]) hsee hsnap hdone (fun _ _ _ _ _ ho => absurd ho hidle.not_owes)
      fun _ _ _ ht => absurd ht hidle.not_tests
  cases hs : s.loc t with
  | setMr c p j =>
    have hl := (hi.at_ hs).loc
    have hcur := ((hi.of t).mine _ hl.1.looks.listed).1.1
    simp only [stepThread, hs, Option.some.injEq] at hn
    exact hn ▸ h.meets hs (by simp only; omega)
  | setRest c p j =>
    simp only [stepThread, hs, Option.some.injEq] at hn
    subst hn
    refine h.goes hs rfl (fun a b => ?_) rfl rfl id (fun g x y _ _ ho => .inr ?_) fun _ _ _ => False.elim
    · by_cases heq : (a, b) = (t.val, j.val)
      · obtain ⟨rfl, rfl⟩ := Prod.ext_iff.mp heq
        exact (congrArg Rowcolpair.mr (Adj.set_same ..)).trans rfl
      · exact congrArg Rowcolpair.mr (Adj.set_other _ _ heq)
    · split
      · exact ho
      · exact ho.imp (fun ho => ⟨ho.1, ho.2, .inl rfl⟩) fun ho => ho
  | setDone c j =>
    simp only [stepThread, hs, Option.some.injEq] at hn
    subst hn
    refine h.goes hs rfl (fun _ _ => rfl) rfl rfl (fun _ => rfl) (fun g x y _ _ ho => .inr ?_) fun _ _ _ => False.elim
    exact ho.imp (fun ho => ⟨ho.1, ho.2, .inl rfl⟩) fun ho => ho
  | look g a b o =>
    simp only [stepThread, hs, Option.some.injEq] at hn
    subst hn
    by_cases hsee : s.see g a = true
    · rw [if_pos hsee]
      exact h.goes hs rfl (fun _ _ => rfl) rfl rfl id (fun _ _ _ _ _ ho => .inr ho) fun _ _ _ => False.elim
    · rw [if_neg hsee]
      refine h.goes hs rfl (fun _ _ => rfl) rfl rfl id (fun g' x y _ hx ho => .inr (owes_nextGoal ?_)) fun _ _ _ => False.elim
      refine ho.imp_left fun ho => ⟨ho.1, ho.2.1, later_goal (fun he => hsee ?_) ho.2.2⟩
      rw [← he, ← ho.1]
      exact hx
  | tell g a b o =>
    simp only [stepThread, hs, Option.some.injEq] at hn
    exact hn ▸ h.tells hs
  | both g a b o =>
    simp only [stepThread, hs, Option.some.injEq] at hn
    subst hn
    by_cases hsee : s.see g.other b = true
    · rw [if_pos hsee]
      exact h.goes hs rfl (fun _ _ => rfl) rfl rfl id (fun _ _ _ _ _ ho => .inr ho) fun _ _ _ ht => .inr ht
    · rw [if_neg hsee]
      refine h.goes hs rfl (fun _ _ => rfl) rfl rfl id (fun _ _ _ _ _ ho => .inr (owes_nextGoal ho)) fun y h1 h2 ht => ?_
      have hyb : y = b := ht
      rw [hyb] at h1 h2
      cases g with
      | start => exact absurd h2 hsee
      | finish => exact absurd h1 hsee
  | found g a b o =>
    simp only [stepThread, hs, Option.some.injEq] at hn
    subst hn
    exact h.goes hs rfl (fun _ _ => rfl) rfl rfl (fun _ => rfl) (fun _ _ _ _ _ ho => .inr (owes_nextGoal ho)) fun _ _ _ _ => .inl rfl
  | snapshot g o need =>
    simp only [stepThread, hs, Option.some.injEq] at hn
    exact hn ▸ h.snapshots hs
  | mine o i =>
    simp only [stepThread, hs] at hn
    by_cases hit : i = t
    · rw [if_pos hit] at hn
      cases hn
      refine h.goes hs rfl (fun _ _ => rfl) rfl rfl id (fun g x y _ hx ho => ?_) fun _ _ _ => False.elim
      obtain ⟨rfl, hle⟩ := ho
      by_cases hy : y = x
      · exact .inl (hy ▸ hx)
      · refine .inr (owes_checkFrom ?_)
        have : i.val ≠ y := fun he => hy (Fin.ext (by rw [← he, hit]))
        omega
    · rw [if_neg hit] at hn
      cases hn
      refine h.goes hs rfl (fun _ _ => rfl) rfl rfl id (fun g x y hm hx ho => .inr ?_) fun _ _ _ => by split <;> exact False.elim
      obtain ⟨rfl, hle⟩ := ho
      by_cases hmr : (s.adj x i).mr ≠ -1
      · rw [if_pos hmr]
        rcases eq_or_lt_of_le hle with rfl | hlt
        · exact .inl ⟨rfl, rfl, .inl rfl⟩
        · exact .inr ⟨rfl, hlt⟩
      · rw [if_neg hmr]
        refine ⟨rfl, (eq_or_lt_of_le hle).symm.imp_right fun he => ⟨he, ?_⟩⟩
        exact hm.2.2.resolve_left (he ▸ hmr)
  | theirs o i =>
    simp only [stepThread, hs, Option.some.injEq] at hn
    subst hn
    refine h.goes hs rfl (fun _ _ => rfl) rfl rfl id (fun g x y hm hx ho => .inr ?_) fun _ _ _ => False.elim
    obtain ⟨rfl, ho⟩ := ho
    by_cases hmr : (s.adj i x).mr ≠ -1
    · rw [if_pos hmr]
      rcases ho with hlt | ⟨rfl, -⟩
      · exact .inr ⟨rfl, hlt⟩
      · exact .inl ⟨rfl, rfl, .inl rfl⟩
    · rw [if_neg hmr]
      rcases ho with hlt | ⟨rfl, hy⟩
      · exact owes_checkFrom (Fin.lt_def.mp hlt)
      · exact absurd hy hmr
  | _ => exact absurd (by rw [hs]; trivial) hidle

theorem told_init (h : Init mp s) : Told s where
  root g t hr := by
    rw [h.see]
    exact decide_eq_true hr
  snap g t hs := by
    rw [h.snap] at hs
    rw [h.see]
    exact hs
  news g x y hm := by
    have hm := hm.2.2
    rw [h.adj, h.adj] at hm
    exact absurd rfl (hm.elim id id)
  both y h1 h2 := by
    rw [h.see, decide_eq_true_iff] at h1 h2
    exact absurd (h1.symm.trans h2) Nat.zero_ne_one

/-- The thread has nothing left to explore, and nothing to tell. -/
def Quiet (s : St n) (t : Fin n) : Prop := s.loc t = .readDone none ∧ ∀ g, s.see g t = true → s.snap g t = true

/-- A thread that is quiet owes nothing, so all that it has met can see what it can see. -/
theorem Told.see_of_route (h : Told s) (hq : ∀ t, Quiet s t) (hr : ReflTransGen (Met n s.adj) g.root a)
    (ha : a < n) : s.see g ⟨a, ha⟩ = true := by
  induction hr with
  | refl => exact h.root g _ rfl
  | @tail x y _ hm ih =>
    have hx := ih hm.1
    rcases h.news g ⟨x, hm.1⟩ ⟨y, ha⟩ hm hx with hy | hsnap | ⟨t, ho⟩
    · exact hy
    · rw [(hq _).2 g hx] at hsnap
      cases hsnap
    · rw [(hq t).1] at ho
      exact ho.elim

/-- **No news is lost.** In every reachable state of three threads or more in which each has nothing left to explore
and nothing to tell, `done` is set if and only if the end of the maze can be reached from its start. -/
theorem quiet_done_iff (n : ℕ) (mp : MazePart) (end_ : Rowcol) (hr : Ready n mp end_) (hn : 2 < n) (s : St n)
    (h : (sys n mp end_).Reach Conc.Sys.always s) (hq : ∀ t, Quiet s t) :
    s.done = true ↔ Reaches mp.toMaze (mp.mcp 0).start end_ := by
  have hboth : Inv mp end_ s ∧ Told s := h.inv (I := fun s => Inv mp end_ s ∧ Told s)
    (fun _ h0 => ⟨inv_init hr h0, told_init h0⟩)
    fun _ _ _ hi _ hn => ⟨inv_next hr hi.1 hn, told_next hi.1 hi.2 hn⟩
  obtain ⟨hi, ht⟩ := hboth
  have hfree : ∀ t, (s.loc t).Free := fun t => by
    rw [(hq t).1]
    exact ⟨rfl, rfl, rfl⟩
  refine ⟨fun hd => hi.reach_of_solved hfree hr.symm (hi.solved hd), fun hreach => ?_⟩
  by_contra hd
  have hall : ∀ t, Explored mp s t (s.mp.mcp t).vi := fun t => by
    have hover : Over mp s t := (hi.at_ (hq t).1).loc
    exact hover.resolve_left hd
  obtain ⟨a, ha, hroute⟩ := hi.solved_of_reach hfree (by omega) hall hreach
  have h1 : a = 1 := InPart.eq ha (hi.end_part hr.end_ (by omega))
  subst h1
  -- thread 1 can see both, and no thread is about to notice
  have hstart : s.see .start ⟨1, by omega⟩ = true := ht.see_of_route (g := .start) hq hroute (by omega)
  have hfinish : s.see .finish ⟨1, by omega⟩ = true := ht.root .finish _ rfl
  obtain ⟨t, htest⟩ := (ht.both _ hstart hfinish).resolve_left hd
  rw [(hq t).1] at htest
  exact htest

/-! ### Two and three threads in one row -/

/-- One row of three cells. Thread 0 starts in the first, thread 1 in the last, and thread 2, if there is one,
between them. -/
def row3 (n : ℕ) : MazePart where
  nrows := 1
  ncols := 3
  visited _ := (0, 0)
  vi := 0
  lastvi := none
  cell p := ⟨fun _ => false, decide (p = (0, 0) ∨ p = (0, 2) ∨ p = (0, 1) ∧ 2 < n), false,
    if p = (0, 2) then 1 else if p = (0, 1) ∧ 2 < n then 2 else 0⟩
  distance p := if p = (0, 0) ∨ p = (0, 2) ∨ p = (0, 1) ∧ 2 < n then 1 else 0
  mcp t := ⟨(0, if t = 0 then 0 else if t = 1 then 2 else 1), fun _ => (0, if t = 0 then 0 else if t = 1 then 2 else 1), 1⟩

/-- All threads start there. -/
def ready (n : ℕ) : St n where
  mp := row3 n
  adj _ _ := .unset
  see g t := decide (t.val = g.root)
  snap g t := decide (t.val = g.root)
  done := false
  loc t := .dist 0 false (((row3 n).mcp t).visited 0)

theorem init_ready (n : ℕ) : Init (row3 n) (ready n) where
  maze := rfl
  adj _ _ := rfl
  see _ _ := rfl
  snap _ _ := rfl
  done := rfl
  loc _ := rfl

/-- A thread that has returned, and one that waits in its last loop. -/
def Loc.code {n : ℕ} : Loc n → ℕ
  | .returned => 1
  | .readDone none => 2
  | _ => 0

theorem ready_row3 (hn : n = 2 ∨ n = 3) : Ready n (row3 n) (0, 2) where
  symm _ _ _ _ := rfl
  ids := by rcases hn with rfl | rfl <;> decide
  started := by
    unfold AllStarted
    rcases hn with rfl | rfl <;> decide
  end_ _ := rfl
  only p _ hv := by
    simp only [row3, decide_eq_true_iff] at hv
    rcases hv with rfl | rfl | ⟨rfl, h2⟩
    · exact ⟨0, by omega, rfl⟩
    · exact ⟨1, by omega, rfl⟩
    · exact ⟨2, h2, rfl⟩
  cookie p _ hv := by
    simp only [row3, decide_eq_false_iff_not, not_or] at hv ⊢
    rw [if_neg hv.2.1, if_neg hv.2.2]
  distance p _ hv := if_neg (of_decide_eq_false hv)
  solution _ _ := rfl
  listed _ _ := ⟨rfl, rfl⟩

theorem returned_of_code (h : l.code = 1) : l = .returned := by
  cases l with
  | returned => rfl
  | readDone o => cases o <;> cases h
  | _ => cases h

theorem readDone_of_code (h : l.code = 2) : l = .readDone none := by
  cases l with
  | readDone o =>
    cases o with
    | none => rfl
    | some vi => cases h
  | _ => cases h

theorem children_partition_row3 : ∃ s : St 2, (sys 2 (row3 2) (0, 2)).Reach Conc.Sys.always s ∧
    (∀ t, s.loc t = .returned) ∧ Partitioned 2 (fun t => ((row3 2).mcp t).start) s.mp ∧
    (∀ a < 2, ∀ b < 2, s.adj a b = .unset ∨ Encounter s.mp a b (s.adj a b)) ∧
    (∀ p, s.mp.CellExists p → (s.mp.cell p).solution = false) ∧
    (Solved s (0, 2) ↔ Reaches (row3 2).toMaze (0, 0) (0, 2)) ∧ (2 < 2 → Reaches (row3 2).toMaze (0, 0) (0, 2)) := by
  have hrun : ((sys 2 (row3 2) (0, 2)).run Conc.Sys.always (List.replicate 34 0 ++ List.replicate 28 1)
      (ready 2)).map (fun s => ((s.loc 0).code, (s.loc 1).code)) = some (1, 1) := by
    decide
  obtain ⟨s, hs, hcode⟩ := Option.map_eq_some_iff.mp hrun
  have hreach := Conc.Sys.run_reach (.init (init_ready 2)) hs
  have hall : ∀ t, s.loc t = .returned := by
    rw [Prod.mk.injEq] at hcode
    exact Fin.forall_fin_two.mpr ⟨returned_of_code hcode.1, returned_of_code hcode.2⟩
  exact ⟨s, hreach, hall,
    (children_partition 2 (row3 2) (0, 2) (ready_row3 (.inl rfl)) (by decide) s hreach).2 hall⟩

theorem quiet_done_iff_row3 : ∃ s : St 3, (sys 3 (row3 3) (0, 2)).Reach Conc.Sys.always s ∧
    (s.done = true ↔ Reaches (row3 3).toMaze (0, 0) (0, 2)) ∧ s.done = true := by
  have hrun : ((sys 3 (row3 3) (0, 2)).run Conc.Sys.always
      (List.replicate 53 2 ++ List.replicate 41 0 ++ List.replicate 41 1) (ready 3)).map
      (fun s => ((List.finRange 3).map fun t => ((s.loc t).code, s.snap .start t, s.snap .finish t), s.done)) =
        some ([(2, true, true), (2, true, true), (2, true, true)], true) := by
    decide +kernel
  obtain ⟨s, hs, hend⟩ := Option.map_eq_some_iff.mp hrun
  have hreach := Conc.Sys.run_reach (.init (init_ready 3)) hs
  rw [Prod.mk.injEq] at hend
  have hquiet : ∀ t, Quiet s t := fun t => by
    have ht : ((s.loc t).code, s.snap .start t, s.snap .finish t) ∈
        [(2, true, true), (2, true, true), (2, true, true)] := by
      rw [← hend.1]
      exact List.mem_map_of_mem (List.mem_finRange t)
    simp only [List.mem_cons, List.not_mem_nil, or_false, or_self, Prod.mk.injEq] at ht
    exact ⟨readDone_of_code ht.1, fun g _ => by cases g <;> simp [ht]⟩
  exact ⟨s, hreach, quiet_done_iff 3 (row3 3) (0, 2) (ready_row3 (.inr rfl)) (by decide) s hreach hquiet, hend.2⟩

end Children
end MazePart
end Perfbook
