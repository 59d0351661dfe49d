/-
# The steps of the threads that solve a maze in partitions

The steps that change a cell, the list or an entry of `adj[]` are those that visit a cell (`Inv.visits`), give it its
distance (`Inv.dates`), append it (`Inv.appends`), and record an encounter (`Inv.meets`, `Inv.records`). The others
go on, set `done` or pass on what a thread can see. All keep what the threads know (`inv_next`), and no step is an
`ABORT` or an access outside of an array (`Inv.can_step`).

Key theorems: `Inv.visits`, `Inv.dates`, `Inv.appends`, `Inv.meets`, `Inv.records`, `inv_next`, `Inv.can_step`,
`inv_init`.
-/
import Perfbook.Maze.ChildrenInv

namespace Perfbook
namespace MazePart
namespace Children

open Maze (Rowcol Cell)
open Relation (ReflTransGen)

variable {n : ℕ} {mp m : MazePart} {end_ p q cur : Rowcol} {s s' : St n} {t u : Fin n} {l l' : Loc n} {g : Goal}
  {vi k : ℕ} {inner : Bool} {c : Call} {left : List Rowcol} {a b : ℕ} {w old : Cell}

/-! ### Visiting a cell -/

/-- The word that the compare-and-exchange leaves. -/
theorem orTid_spec (ht : a ≤ Maze.cookieMask) (hw : sameWord w old = true) (hc : w.cookie = 0) :
    (orTid old a).wall = w.wall ∧ (orTid old a).solution = w.solution ∧ (orTid old a).cookie = a := by
  have hlt : a < 2 ^ 26 := by
    have : Maze.cookieMask = 2 ^ 26 - 1 := by decide
    omega
  have hbit : ∀ i, 26 ≤ i → a.testBit i = false := fun i hi =>
    Nat.testBit_lt_two_pow (hlt.trans_le (Nat.pow_le_pow_right (by decide) hi))
  simp only [sameWord, Bool.and_eq_true, beq_iff_eq] at hw
  obtain ⟨⟨⟨⟨⟨⟨hu, hd⟩, hr⟩, hl⟩, -⟩, hs⟩, hcookie⟩ := hw
  refine ⟨funext fun d => ?_, ?_, ?_⟩
  · cases d <;> simp [orTid, wallBit, hbit, hu, hd, hr, hl]
  · simp [orTid, hbit, hs]
  · rw [orTid, ← hcookie, hc, Nat.zero_or]
    exact (Nat.and_two_pow_sub_one_eq_mod a 26).trans (Nat.mod_eq_of_lt hlt)

/-- The cells of the threads when one more is visited. -/
theorem inPart_visit (hp : m.CellExists p) (hv : (m.cell p).visited = false) (hw : w.visited = true)
    (hc : w.cookie = a) : InPart { m with cell := Function.update m.cell p w } b q ↔
      InPart m b q ∨ q = p ∧ b = a := by
  by_cases hq : q = p
  · subst hq
    have hnot : ¬ InPart m b q := fun h => by
      rw [h.2.1] at hv
      cases hv
    unfold InPart at hnot ⊢
    simp only [Function.update_self, hw, hc, true_and, hnot, false_or]
    exact ⟨fun h => h.2.symm, fun h => ⟨hp, h.symm⟩⟩
  · unfold InPart
    simp only [Function.update_of_ne hq, hq, false_and, or_false]
    exact Iff.rfl

theorem Base.visit (h : Base n mp m) (ht : a < n) (hwall : w.wall = (m.cell p).wall)
    (hsol : w.solution = (m.cell p).solution) (hv : w.visited = true) (hc : w.cookie = a) :
    Base n mp { m with cell := Function.update m.cell p w } := by
  set m' : MazePart := { m with cell := Function.update m.cell p w } with hm'
  have hself : m'.cell p = w := Function.update_self ..
  have hother : ∀ {q}, q ≠ p → m'.cell q = m.cell q := fun hq => Function.update_of_ne hq ..
  refine ⟨h.nrows, h.ncols, fun q => ?_, fun q => ?_, h.start, fun q hq => ?_, fun q hq => ?_⟩
  all_goals by_cases hqp : q = p
  · rw [hqp, hself, hwall, h.wall]
  · rw [hother hqp, h.wall]
  · rw [hqp, hself, hsol, h.solution]
  · rw [hother hqp, h.solution]
  · rw [hqp, hself, hv]
    exact nofun
  · rw [hother hqp]
    exact h.fresh q hq
  · rw [hqp, hself, hc]
    exact fun _ => ht
  · rw [hother hqp]
    exact h.owner q hq

theorem InPart.cell_exists (hb : Base n mp m) (h : InPart m a p) : mp.CellExists p := hb.exists_iff.mp h.1

theorem opens_inside (h : mp.Opens p q) : mp.CellExists q := by
  obtain ⟨-, -, -, hq, -⟩ := h
  exact hq

namespace Inv

variable (h : Inv mp end_ s)
include h

/-- What is known of a thread at a place. -/
theorem at_ (hs : s.loc t = l) : Of mp s t l := hs ▸ h.of t

/-- The compare-and-exchange has visited `p`. -/
theorem visits (ht : t.val ≤ Maze.cookieMask) (hs : s.loc t = .cas c p old) (hw : s.mp.getCell p = some w)
    (hsame : sameWord w old = true) : Inv mp end_ ({ s with mp := { s.mp with
      cell := Function.update s.mp.cell p (orTid old t) } }.goto t (.setDist c p)) := by
  have hof := h.at_ hs
  obtain ⟨hcalls, hopens, hold⟩ := hof.loc
  have hp := opens_inside hopens
  have hp' := h.base.exists_iff.mpr hp
  rw [Maze.getCell_eq hp', Option.some.injEq] at hw
  subst hw
  have hv : (s.mp.cell p).visited = false := by
    have := hsame
    simp only [sameWord, Bool.and_eq_true, beq_iff_eq] at this
    rw [this.1.1.2, hold]
  obtain ⟨hwall, hsol, hcookie⟩ := orTid_spec ht hsame (h.base.fresh p hp hv).1
  set s' := ({ s with mp := { s.mp with cell := Function.update s.mp.cell p (orTid old t) } }.goto t
    (.setDist c p)) with hs'
  have hpart : ∀ b q, InPart s'.mp b q ↔ InPart s.mp b q ∨ q = p ∧ b = t :=
    fun b q => inPart_visit hp' hv rfl hcookie
  have hg : Grows s s' := ⟨fun b q hq => (hpart b q).mpr (.inl hq), fun _ _ => id, id⟩
  have hbase : Base n mp s'.mp := h.base.visit t.isLt hwall hsol rfl hcookie
  have hne : ∀ q, InPart s.mp t q → q ≠ p := fun q hq hqp => by
    rw [← hqp, hq.2.1] at hv
    cases hv
  refine h.of_step hg rfl hbase (fun u hut => ⟨rfl, fun q hq => ?_, fun _ _ => rfl, rfl⟩) ?_ (fun _ _ => .inl) .inl
  · exact ((hpart u q).mp hq).resolve_right fun hqp => hut (Fin.ext hqp.2)
  · exact {
      pos := hof.pos
      first := hof.first
      mine := fun q hq => hg.part t q (hof.mine q hq)
      inj := hof.inj
      cover := fun q hq => ((hpart t q).mp hq).elim
        (fun hq => .inl ((hof.cover q hq).resolve_right nofun)) fun hqp => .inr (congrArg some hqp.1.symm)
      pend := fun q hq => by
        cases hq
        exact ⟨(hpart t p).mpr (.inr ⟨rfl, rfl⟩), fun hl => hne p (hof.mine p hl) rfl⟩
      prev := fun q hq hqs => ((hpart t q).mp hq).elim
        (fun hq => .inr ((hof.prev q hq hqs).resolve_left nofun))
        fun hqp => .inl (congrArg some hqp.1.symm)
      one := hof.one
      met := fun b => (hof.met b).imp_right fun hm => .inl (Encounter.grows hg h.base hbase (hm.resolve_right nofun))
      loc := ⟨⟨⟨hcalls.looks.back.1, hg.explored rfl hcalls.looks.back.2⟩, hcalls.looks.listed,
        hcalls.looks.outer⟩, hcalls.d, hopens⟩ }

/-- The cell has got its distance. -/
theorem dates (hsymm : mp.Symmetric) (hs : s.loc t = .setDist c p) : Inv mp end_ ({ s with mp := { s.mp with
      distance := Function.update s.mp.distance p c.d } }.goto t (.extend c.vi p)) := by
  have hof := h.at_ hs
  obtain ⟨hlooks, hd, hopens⟩ := hof.loc
  obtain ⟨hmine, hnew⟩ := hof.pend p rfl
  -- the cell that it was visited from has been appended
  have hlist : ∀ {q}, Listed s t q → q ≠ p := fun hq he => hnew (he ▸ hq)
  have hstart : (mp.mcp t).start ≠ p := hlist ⟨0, hof.pos, hof.first⟩
  set s' := ({ s with mp := { s.mp with distance := Function.update s.mp.distance p c.d } }.goto t
    (.extend c.vi p)) with hs'
  have hself : s'.mp.distance p = c.d := Function.update_self ..
  have hother : ∀ {q}, q ≠ p → s'.mp.distance q = s.mp.distance q := fun hq => Function.update_of_ne hq ..
  have hg : Grows s s' := ⟨fun _ _ => id, fun _ _ => id, id⟩
  have hbase : Base n mp s'.mp :=
    { h.base with
      fresh := fun q hq hqv => by
        have hqp : q ≠ p := fun he => by
          rw [he] at hqv
          exact absurd (hmine.2.1.symm.trans hqv) (by decide)
        rw [hother hqp]
        exact h.base.fresh q hq hqv }
  refine h.of_step hg rfl hbase (fun u hut => ⟨rfl, fun _ => id, fun q hq => hother fun he => ?_, rfl⟩) ?_
    (fun _ _ => .inl) .inl
  · exact hut (Fin.ext (InPart.eq (he ▸ hq) hmine))
  · exact {
      pos := hof.pos
      first := hof.first
      mine := hof.mine
      inj := hof.inj
      cover := hof.cover
      pend := hof.pend
      prev := fun q hq hqs => by
        refine .inr ?_
        by_cases hqp : q = p
        · subst hqp
          refine ⟨c.cur, hlooks.listed, hopens.symm hsymm, ?_⟩
          rw [hself, hother (hlist hlooks.listed), hd]
        · obtain ⟨x, hx, hqx, hdx⟩ := (hof.prev q hq hqs).resolve_left fun he => hqp (Option.some.inj he).symm
          refine ⟨x, hx, hqx, ?_⟩
          rw [hother hqp, hother (hlist hx), hdx]
      one := by
        rw [hother hstart]
        exact hof.one
      met := fun b => (hof.met b).imp_right fun hm => .inl (Encounter.grows hg h.base hbase (hm.resolve_right nofun))
      loc := ⟨hlooks.back.1, hg.explored rfl hlooks.back.2⟩ }

end Inv
/-! ### The list -/

/-- The list of a thread, as one of the maze. -/
def listOf (m : MazePart) (t : ℕ) : Maze := { m.toMaze with visited := (m.mcp t).visited, vi := (m.mcp t).vi }

theorem append_mcp (m : MazePart) (a : ℕ) (p : Rowcol) : (append m a p).mcp a = { m.mcp a with
    visited := Function.update (m.mcp a).visited (m.mcp a).vi p, vi := (m.mcp a).vi + 1 } :=
  Function.update_self ..

theorem append_mcp_ne (h : b ≠ a) : (append m a p).mcp b = m.mcp b := Function.update_of_ne h ..

namespace Of

variable (h : Of mp s t l)
include h

/-- The entries are in the array. -/
theorem vi_le : (s.mp.mcp t).vi ≤ s.mp.size := by
  have hstart := h.start.1
  unfold Maze.CellExists at hstart
  have hcells : (s.mp.cells.card : ℤ) = s.mp.nrows * s.mp.ncols := Maze.card_cells (by omega) (by omega)
  have hin : ∀ i < (listOf s.mp t).vi, (listOf s.mp t).CellExists ((listOf s.mp t).visited i) :=
    fun i hi => (h.mine _ ⟨i, hi, rfl⟩).1
  have hcard := Finset.card_le_card (Maze.visited_subset hin)
  rw [@Maze.card_visited (listOf s.mp t) h.inj] at hcard
  unfold Maze.size
  have : ((s.mp.mcp t).vi : ℤ) ≤ s.mp.cells.card := by exact_mod_cast hcard
  omega

/-- With a cell that is not listed, there is room for it. -/
theorem room (hp : l.pending = some p) : (s.mp.mcp t).vi < s.mp.size := by
  obtain ⟨hmine, hnew⟩ := h.pend p hp
  have := @Maze.vi_lt_size (listOf s.mp t) p (fun i hi => (h.mine _ ⟨i, hi, rfl⟩).1) h.inj hmine.1
    fun i hi he => hnew ⟨i, hi, he⟩
  unfold Maze.size
  change ((s.mp.mcp t).vi : ℤ) < s.mp.nrows * s.mp.ncols at this
  omega

end Of

namespace Inv

variable (h : Inv mp end_ s)
include h

/-- The cell that the thread has visited is appended. -/
theorem appends (hs : s.loc t = .extend vi p) : Inv mp end_ ({ s with
      mp := append s.mp t p, done := s.done || (decide (n = 1) && decide (p = end_)) }.goto t (.onward vi p)) := by
  have hof := h.at_ hs
  obtain ⟨hvi, hexp⟩ := hof.loc
  obtain ⟨hmine, hnew⟩ := hof.pend p rfl
  set s' := ({ s with
    mp := append s.mp t p, done := s.done || (decide (n = 1) && decide (p = end_)) }.goto t (.onward vi p)) with hs'
  have hmcp := append_mcp s.mp t p
  have hold : ∀ i < (s.mp.mcp t).vi, (s'.mp.mcp t).visited i = (s.mp.mcp t).visited i := fun i hi => by
    rw [show s'.mp.mcp t = _ from hmcp]
    exact Function.update_of_ne hi.ne ..
  have hlast : (s'.mp.mcp t).visited (s.mp.mcp t).vi = p := by
    rw [show s'.mp.mcp t = _ from hmcp]
    exact Function.update_self ..
  have hlen : (s'.mp.mcp t).vi = (s.mp.mcp t).vi + 1 := by
    rw [show s'.mp.mcp t = _ from hmcp]
  have hlist : ∀ q, Listed s' t q ↔ Listed s t q ∨ q = p := fun q => by
    unfold Listed
    rw [hlen]
    constructor
    · rintro ⟨i, hi, rfl⟩
      rcases Nat.lt_succ_iff_lt_or_eq.mp hi with hi | rfl
      · exact .inl ⟨i, hi, (hold i hi).symm⟩
      · exact .inr hlast
    · rintro (⟨i, hi, rfl⟩ | rfl)
      · exact ⟨i, Nat.lt_succ_of_lt hi, hold i hi⟩
      · exact ⟨_, Nat.lt_succ_self _, hlast⟩
  have hne : ∀ i < (s.mp.mcp t).vi, (s.mp.mcp t).visited i ≠ p := fun i hi he => hnew ⟨i, hi, he⟩
  have hg : Grows s s' := ⟨fun _ _ => id, fun _ _ => id, fun hd => by simp [hs', St.goto, hd]⟩
  have hother : ∀ u : Fin n, u ≠ t → s'.mp.mcp u = s.mp.mcp u :=
    fun u hut => append_mcp_ne fun he => hut (Fin.ext he)
  have hbase : Base n mp s'.mp :=
    { h.base with
      start := fun b => by
        by_cases hbt : b = t
        · subst hbt
          rw [show s'.mp.mcp t = _ from hmcp]
          exact h.base.start t
        · rw [show s'.mp.mcp b = _ from append_mcp_ne hbt]
          exact h.base.start b }
  refine h.of_step hg rfl hbase (fun u hut => ⟨hother u hut, fun _ => id, fun _ _ => rfl, rfl⟩) ?_ (fun _ _ => .inl)
    fun hd => ?_
  · exact {
      pos := hlen ▸ Nat.succ_pos _
      first := (hold 0 hof.pos).trans hof.first
      mine := fun q hq => ((hlist q).mp hq).elim (hof.mine q) fun he => he ▸ hmine
      inj := fun i hi j hj he => by
        rw [hlen] at hi hj
        rcases Nat.lt_succ_iff_lt_or_eq.mp hi with hi | rfl <;> rcases Nat.lt_succ_iff_lt_or_eq.mp hj with hj | rfl
        · exact hof.inj i hi j hj (by rwa [← hold i hi, ← hold j hj])
        · exact absurd ((hold i hi).symm.trans (he.trans hlast)) (hne i hi)
        · exact absurd ((hold j hj).symm.trans (he.symm.trans hlast)) (hne j hj)
        · rfl
      cover := fun q hq => .inl ((hlist q).mpr ((hof.cover q hq).imp_right fun he => (Option.some.inj he).symm))
      pend := nofun
      prev := fun q hq hqs => .inr (((hof.prev q hq hqs).resolve_left nofun).imp fun x hx =>
        hx.imp_left fun hx => (hlist x).mpr (.inl hx))
      one := hof.one
      met := fun b => (hof.met b).imp_right fun hm => .inl (Encounter.grows hg h.base hbase (hm.resolve_right nofun))
      loc := ⟨⟨hlen ▸ Nat.lt_succ_of_lt hvi, fun i hi q ho => by
        rw [hold i (hi.trans hvi)] at ho
        exact hg.handled (hexp i hi q ho)⟩, (hlist p).mpr (.inr rfl)⟩ }
  · simp only [hs', St.goto, Bool.or_eq_true, Bool.and_eq_true, decide_eq_true_iff] at hd
    refine hd.imp_right fun ⟨hn, he⟩ => ⟨t, he ▸ hmine, ?_⟩
    rw [show t.val = 0 by omega]

end Inv

/-! ### Encounters -/

/-- A call goes on with the same cells and lists. -/
theorem Calls.same (h : Calls mp s t c left) (hg : Grows s s') (hmp : s'.mp = s.mp) : Calls mp s' t c left where
  looks := ⟨⟨by rw [hmp]; exact h.looks.back.1, hg.explored (by rw [hmp]) h.looks.back.2⟩,
    by unfold Listed; rw [hmp]; exact h.looks.listed, by rw [hmp]; exact h.looks.outer⟩
  d := by rw [hmp]; exact h.d
  near := h.near
  left hi q hq := (h.left hi q hq).imp_right hg.handled

/-- Nothing is left to show of a neighbour that is handled. -/
theorem Calls.next (h : Calls mp s t c (p :: left)) (hp : mp.Opens c.cur p → Handled s t p) : Calls mp s t c left :=
  ⟨h.looks, h.d, fun q hq => h.near q (List.mem_cons_of_mem p hq), fun hi q ho => (h.left hi q ho).elim (fun hq => by
    rcases List.mem_cons.mp hq with rfl | hq
    · exact .inr (hp ho)
    · exact .inl hq) .inr⟩

namespace Inv

variable (h : Inv mp end_ s)
include h

/-- The thread stores to its entry for `j`. -/
theorem enters {e : Rowcolpair} {j : Fin n} (hs : s.loc t = l) (hun : l.pending = none ∧ l.undated = none)
    (hun' : l'.pending = none ∧ l'.undated = none) (hmr : e.mr ≠ -1) (hrec : ∀ b, l.records = some b → b = j)
    (he : Encounter s.mp t j e ∨ l'.records = some j.val)
    (hl : Grows s ({ s with adj := s.adj.set t j e }.goto t l') →
      LocInv mp ({ s with adj := s.adj.set t j e }.goto t l') t l') :
    Inv mp end_ ({ s with adj := s.adj.set t j e }.goto t l') := by
  have hof := h.at_ hs
  set s' := ({ s with adj := s.adj.set t j e }.goto t l') with hs'
  have hself : s'.adj t j = e := Adj.set_same ..
  have hother : ∀ {a b}, (a, b) ≠ (t.val, j.val) → s'.adj a b = s.adj a b := fun hab => Adj.set_other _ _ hab
  have hg : Grows s s' := by
    refine ⟨fun _ _ => id, fun a b hab => ?_, id⟩
    by_cases heq : (a, b) = (t.val, j.val)
    · obtain ⟨rfl, rfl⟩ := Prod.ext_iff.mp heq
      rw [hself]
      exact hmr
    · rw [hother heq]
      exact hab
  refine h.of_step hg rfl h.base (fun u hut => ⟨rfl, fun _ => id, fun _ _ => rfl, ?_⟩) ?_ (fun _ _ => .inl) .inl
  · exact Function.update_of_ne (fun he => hut (Fin.ext he)) ..
  · exact { hof with
      cover := by rw [hun'.1, ← hun.1]; exact hof.cover
      pend := by rw [hun'.1]; exact nofun
      prev := by rw [hun'.2, ← hun.2]; exact hof.prev
      met := fun b => by
        by_cases hb : b = j
        · subst hb
          rw [hself]
          exact .inr he
        · rw [hother fun heq => hb (Prod.ext_iff.mp heq).2]
          exact (hof.met b).imp_right fun hm => .inl (hm.resolve_right fun hr => hb (hrec b hr))
      loc := hl hg }

/-- The encounter is there for all to see. -/
theorem meets {j : Fin n} (hs : s.loc t = .setMr c p j) :
    Inv mp end_ ({ s with adj := s.adj.set t j { s.adj t j with mr := c.cur.1 } }.goto t (.setRest c p j)) := by
  have hof := h.at_ hs
  obtain ⟨hcalls, ho, hj, hne⟩ := hof.loc
  have hmr : c.cur.1 ≠ -1 := by
    have := (hof.mine _ hcalls.looks.listed).1.1
    omega
  refine h.enters hs ⟨rfl, rfl⟩ ⟨rfl, rfl⟩ hmr nofun (.inr rfl) fun hg => ?_
  have hself : (s.adj.set t j { s.adj t j with mr := c.cur.1 } t j).mr = c.cur.1 := by rw [Adj.set_same]
  exact ⟨(hcalls.same hg rfl).next fun _ => ⟨j, hj, .inr (hself.trans_ne hmr)⟩, ho, hj, hne, hself⟩

/-- The encounter is complete. -/
theorem records {j : Fin n} (hs : s.loc t = .setRest c p j) : Inv mp end_
    ({ s with adj := s.adj.set t j { s.adj t j with mc := c.cur.2, tr := p.1, tc := p.2 } }.goto t
      (if n = 2 then .setDone c j else propagate t j (.meet c false j))) := by
  have hof := h.at_ hs
  obtain ⟨hcalls, ho, hj, hne, hmr⟩ := hof.loc
  have hcur := hof.mine _ hcalls.looks.listed
  have hm : (s.adj t j).mr ≠ -1 := by
    have := hcur.1.1
    omega
  have henc : Encounter s.mp t j { s.adj t j with mc := c.cur.2, tr := p.1, tc := p.2 } := by
    refine ⟨?_, hj, ?_⟩
    · rw [Rowcolpair.m, hmr]
      exact hcur
    · rw [Rowcolpair.m, hmr]
      exact h.base.opens_iff.mpr ho
  have hself : (s.adj.set t j { s.adj t j with mc := c.cur.2, tr := p.1, tc := p.2 } t j).mr ≠ -1 := by
    rw [Adj.set_same]
    exact hm
  have hrec : ∀ b, (Loc.setRest c p j).records = some b → b = j := fun b hb => (Option.some.inj hb).symm
  by_cases hn : n = 2
  · rw [if_pos hn]
    exact h.enters hs ⟨rfl, rfl⟩ ⟨rfl, rfl⟩ hm hrec (.inl henc) fun hg =>
      ⟨hcalls.same hg rfl, hself, hn, hne⟩
  · rw [if_neg hn]
    exact h.enters hs ⟨rfl, rfl⟩ ⟨rfl, rfl⟩ hm hrec (.inl henc) fun hg =>
      ⟨⟨t.isLt, j.isLt, .inl hself⟩, hcalls.same hg rfl, hself⟩

end Inv

/-! ### Going on -/

/-- At the place no cell is to be appended and no encounter to be completed. -/
def Loc.Free (l : Loc n) : Prop := l.pending = none ∧ l.undated = none ∧ l.records = none

/-- The thread may go to the place. -/
structure Next (mp : MazePart) (s : St n) (t : Fin n) (l : Loc n) : Prop where
  free : l.Free
  loc : LocInv mp s t l

theorem next_checkFrom {o : Option ℕ} (h : Back mp s t o) (i : ℕ) : Next mp s t (checkFrom o i) :=
  Conc.scan_rec (fun _ _ => ⟨⟨rfl, rfl, rfl⟩, h⟩) fun _ => ⟨⟨rfl, rfl, rfl⟩, h⟩

theorem next_doneCheck {o : Option ℕ} (h : Back mp s t o) : Next mp s t (doneCheck n o) := by
  unfold doneCheck
  split
  · exact ⟨⟨rfl, rfl, rfl⟩, h⟩
  · exact ⟨⟨rfl, rfl, rfl⟩, h⟩

theorem next_stop (h : Over mp s t) : Next mp s t (stop n) := by
  unfold stop
  split
  · exact next_doneCheck h
  · rename_i hn
    exact ⟨⟨rfl, rfl, rfl⟩, h, fun hlt => absurd hlt hn⟩

theorem next_propagate {x y : Fin n} {o : Cont n} (hm : Met n s.adj x y) (h : ContInv mp s t o) :
    Next mp s t (propagate x y o) := ⟨⟨rfl, rfl, rfl⟩, hm, h⟩

theorem next_resume {o : Cont n} (h : ContInv mp s t o) : Next mp s t (resume t o) := by
  cases o with
  | meet c second j =>
    cases second with
    | false => exact next_propagate ⟨j.isLt, t.isLt, .inr h.2⟩ h
    | true => exact ⟨⟨rfl, rfl, rfl⟩, h.1⟩
  | check o i => exact next_checkFrom h _

theorem next_nextGoal {x y : Fin n} {o : Cont n} (hm : Met n s.adj x y) (h : ContInv mp s t o) (g : Goal) :
    Next mp s t (nextGoal t x y o g) := by
  cases g with
  | start => exact ⟨⟨rfl, rfl, rfl⟩, hm, h⟩
  | finish => exact next_resume h

theorem next_nextSnapshot {o : Option ℕ} (h : Back mp s t o) (need : Bool) (g : Goal) :
    Next mp s t (nextSnapshot o need g) := by
  cases g with
  | start => exact ⟨⟨rfl, rfl, rfl⟩, h⟩
  | finish =>
    simp only [nextSnapshot]
    split
    · exact next_checkFrom h 0
    · exact ⟨⟨rfl, rfl, rfl⟩, h⟩

theorem Explored.mono (h : Explored mp s t k) (hvi : vi ≤ k) : Explored mp s t vi :=
  fun i hi q ho => h i (hi.trans_le hvi) q ho

/-- The cells that are tried are neighbours. -/
theorem near_anyNextCell (h : q ∈ Maze.Visited.anyNextCell cur) : ∃ e, q = Maze.step cur e := by
  obtain ⟨e, -, he⟩ := List.mem_map.mp (show q ∈ Maze.nextSides.map (Maze.step cur) from h)
  exact ⟨e, he.symm⟩

namespace Inv

variable (h : Inv mp end_ s)
include h

/-- A step that only goes on. -/
theorem moves_to (hs : s.loc t = l) (hf : l.Free) (hl : Next mp s t l') : Inv mp end_ (s.goto t l') :=
  h.moves hs (hl.free.1.trans hf.1.symm) (hl.free.2.1.trans hf.2.1.symm) (hl.free.2.2.trans hf.2.2.symm) hl.loc

/-- The thread sets `done`. -/
theorem decides (hs : s.loc t = l) (hf : l.Free) (hsolved : Solved s end_)
    (hl : Next mp { s with done := true } t l') : Inv mp end_ ({ s with done := true }.goto t l') := by
  refine h.goes hs rfl rfl rfl (hl.free.1.trans hf.1.symm) (hl.free.2.1.trans hf.2.1.symm)
    (hl.free.2.2.trans hf.2.2.symm) (fun _ _ => .inl) (fun _ => rfl) (fun _ => .inr hsolved) ?_
  exact hl.loc.grows (h.of t).mine ⟨fun _ _ => id, fun _ _ => id, id⟩ ⟨rfl, fun _ => id, fun _ _ => rfl, rfl⟩

/-- Thread 1 starts at the end. -/
theorem end_part (hend : 1 < n → (mp.mcp 1).start = end_) (hn : 1 < n) : InPart s.mp 1 end_ :=
  hend hn ▸ (h.of ⟨1, hn⟩).start

/-- A thread that can see both the start and the end. -/
theorem solved_of_sees (hend : 1 < n → (mp.mcp 1).start = end_) {b : Fin n} (hg : Sees n s.adj g b)
    (hg' : Sees n s.adj g.other b) : Solved s end_ := by
  have hsymm : Std.Symm (Met n s.adj) := ⟨fun x y hm => ⟨hm.2.1, hm.1, hm.2.2.symm⟩⟩
  have hboth : Sees n s.adj .start b ∧ Sees n s.adj .finish b := by
    cases g with
    | start => exact ⟨hg, hg'⟩
    | finish => exact ⟨hg', hg⟩
  have hn : 1 < n := by
    rcases Relation.ReflTransGen.cases_head hboth.2 with he | ⟨x, hx, -⟩
    · have : (1 : ℕ) = b := he
      omega
    · exact hx.1
  exact ⟨1, h.end_part hend hn, hboth.1.trans (ReflTransGen.stdSymm.symm _ _ hboth.2)⟩

end Inv

/-- **A step of a thread keeps what the threads know.** -/
theorem inv_next (hr : Ready n mp end_) (h : Inv mp end_ s) (hn : stepThread end_ t s = some s') :
    Inv mp end_ s' := by
  cases hs : s.loc t with
  | dist vi inner cur =>
    have hof := h.at_ hs
    have hl : Looks mp s t vi inner cur := hof.loc
    simp only [stepThread, hs, getCellDistance_eq (hof.mine _ hl.listed).1, Option.bind_eq_bind, Option.bind_some,
      Option.some.injEq] at hn
    subst hn
    exact h.moves_to hs ⟨rfl, rfl, rfl⟩ ⟨⟨rfl, rfl, rfl⟩, hl, rfl, fun _ => near_anyNextCell,
      fun _ q ho => .inl (Maze.Fg.mem_anyNextCell ho)⟩
  | try_ c =>
    have hl : Calls mp s t c c.rest := (h.at_ hs).loc
    have hcur := (h.of t).mine _ hl.looks.listed
    obtain ⟨vi, inner, cur, d, rest⟩ := c
    cases rest with
    | nil =>
      simp only [stepThread, hs, Option.some.injEq] at hn
      subst hn
      cases inner with
      | true => exact h.moves_to hs ⟨rfl, rfl, rfl⟩ (next_doneCheck hl.looks.back)
      | false =>
        refine h.moves_to hs ⟨rfl, rfl, rfl⟩ ⟨⟨rfl, rfl, rfl⟩, hl.looks.back.1, fun i hi q ho => ?_⟩
        rcases Nat.lt_succ_iff_lt_or_eq.mp hi with hi | rfl
        · exact hl.looks.back.2 i hi q ho
        · have hq := hl.left rfl q ((hl.looks.outer rfl : cur = _) ▸ ho)
          exact hq.resolve_left List.not_mem_nil
    | cons p ps =>
      simp only [stepThread, hs] at hn
      obtain ⟨b, hb, hn⟩ := Option.bind_eq_some_iff.mp hn
      cases hn
      cases b with
      | true =>
        exact h.moves_to hs ⟨rfl, rfl, rfl⟩ ⟨⟨rfl, rfl, rfl⟩, ⟨hl.looks, hl.d, hl.near, hl.left⟩,
          h.base.opens_iff.mp (Maze.Fg.opens_of_connected hcur.1 hb)⟩
      | false =>
        refine h.moves_to hs ⟨rfl, rfl, rfl⟩ ⟨⟨rfl, rfl, rfl⟩, ?_⟩
        refine Calls.next (c := ⟨vi, inner, cur, d, ps⟩) (p := p) ⟨hl.looks, hl.d, hl.near, hl.left⟩ fun ho => ?_
        rw [Maze.Fg.connected_of_opens (h.base.opens_iff.mpr ho)] at hb
        cases hb
  | read c p =>
    obtain ⟨hl, ho⟩ := (h.at_ hs).loc
    have hp := h.base.exists_iff.mpr (opens_inside ho)
    simp only [stepThread, hs, Maze.getCell_eq hp, Option.bind_eq_bind, Option.bind_some, Option.some.injEq] at hn
    subst hn
    cases hv : (s.mp.cell p).visited with
    | true =>
      obtain ⟨u, hu⟩ := h.base.thread (opens_inside ho) hv
      rw [if_pos rfl]
      by_cases h1 : n = 1
      · rw [if_pos h1]
        refine h.moves_to hs ⟨rfl, rfl, rfl⟩ ⟨⟨rfl, rfl, rfl⟩, hl.next fun _ => ⟨u, hu, .inl ?_⟩⟩
        omega
      · rw [if_neg h1]
        exact h.moves_to hs ⟨rfl, rfl, rfl⟩ ⟨⟨rfl, rfl, rfl⟩, hl, ho, u, hu⟩
    | false =>
      rw [if_neg Bool.false_ne_true]
      exact h.moves_to hs ⟨rfl, rfl, rfl⟩ ⟨⟨rfl, rfl, rfl⟩, hl, ho, hv⟩
  | cas c p old =>
    obtain ⟨hl, ho, hold⟩ := (h.at_ hs).loc
    have hp := h.base.exists_iff.mpr (opens_inside ho)
    simp only [stepThread, hs, Maze.getCell_eq hp, Option.bind_eq_bind, Option.bind_some, setCell_eq hp] at hn
    split at hn
    · rename_i hsame
      cases hn
      have := hr.ids
      exact h.visits (by omega) hs (Maze.getCell_eq hp) hsame
    · cases hn
      exact h.moves_to hs ⟨rfl, rfl, rfl⟩ ⟨⟨rfl, rfl, rfl⟩, hl, ho⟩
  | setDist c p =>
    have hp := ((h.at_ hs).pend p rfl).1.1
    simp only [stepThread, hs, setCellDistance_eq hp, Option.bind_eq_bind, Option.bind_some, Option.some.injEq] at hn
    exact hn ▸ h.dates hr.symm hs
  | extend vi p =>
    simp only [stepThread, hs, if_pos ((h.at_ hs).room rfl), Option.some.injEq] at hn
    exact hn ▸ h.appends hs
  | onward vi p =>
    obtain ⟨hb, hp⟩ := (h.at_ hs).loc
    simp only [stepThread, hs, Option.some.injEq] at hn
    subst hn
    by_cases hd : s.done = true
    · rw [if_pos hd]
      exact h.moves_to hs ⟨rfl, rfl, rfl⟩ (next_stop (.inl hd))
    · rw [if_neg hd]
      exact h.moves_to hs ⟨rfl, rfl, rfl⟩ ⟨⟨rfl, rfl, rfl⟩, hb, hp, nofun⟩
  | nextCell vi =>
    obtain ⟨hvi, hexp⟩ := (h.at_ hs).loc
    simp only [stepThread, hs] at hn
    split at hn
    · rename_i hstop
      cases hn
      refine h.moves_to hs ⟨rfl, rfl, rfl⟩ (next_stop ?_)
      exact hstop.symm.imp_right hexp.mono
    · rename_i hgo
      have hlt : vi + 1 < (s.mp.mcp t).vi := not_le.mp (not_or.mp hgo).1
      obtain ⟨cur, hcur, hn⟩ := Option.bind_eq_some_iff.mp hn
      cases hn
      rw [St.entry, peek, if_pos (hlt.trans_le (h.of t).vi_le), Option.some.injEq] at hcur
      subst hcur
      exact h.moves_to hs ⟨rfl, rfl, rfl⟩ ⟨⟨rfl, rfl, rfl⟩, ⟨hlt, hexp⟩, ⟨_, hlt, rfl⟩, fun _ => rfl⟩
  | tid c p =>
    obtain ⟨hl, ho, u, hu⟩ := (h.at_ hs).loc
    obtain ⟨v, hv⟩ := h.base.thread (opens_inside ho) hu.2.1
    simp only [stepThread, hs, getCellTid_eq hu.1, Option.bind_eq_bind, Option.bind_some, hv.2.2] at hn
    by_cases htid : v.val = t
    · rw [if_pos htid] at hn
      cases hn
      exact h.moves_to hs ⟨rfl, rfl, rfl⟩ ⟨⟨rfl, rfl, rfl⟩, hl.next fun _ => ⟨v, hv, .inl htid⟩⟩
    · rw [if_neg htid, dif_pos v.isLt] at hn
      cases hn
      exact h.moves_to hs ⟨rfl, rfl, rfl⟩ ⟨⟨rfl, rfl, rfl⟩, hl, ho, hv, fun he => htid (congrArg Fin.val he)⟩
  | setMr c p j =>
    simp only [stepThread, hs, Option.some.injEq] at hn
    exact hn ▸ h.meets hs
  | setRest c p j =>
    simp only [stepThread, hs, Option.some.injEq] at hn
    exact hn ▸ h.records hs
  | setDone c j =>
    obtain ⟨hl, hm, h2, hne⟩ := (h.at_ hs).loc
    simp only [stepThread, hs, Option.some.injEq] at hn
    subst hn
    have hmet : Met n s.adj 0 1 := by
      have hval : j.val ≠ t := fun he => hne (Fin.ext he)
      refine ⟨by omega, by omega, ?_⟩
      rcases (show t.val = 0 ∧ j.val = 1 ∨ t.val = 1 ∧ j.val = 0 by omega) with ⟨ht, hj⟩ | ⟨ht, hj⟩
      · exact .inl (by rwa [ht, hj] at hm)
      · exact .inr (by rwa [ht, hj] at hm)
    exact h.decides hs ⟨rfl, rfl, rfl⟩ ⟨1, h.end_part hr.end_ (by omega), .single hmet⟩
      (next_propagate ⟨t.isLt, j.isLt, .inl hm⟩ ⟨hl.same ⟨fun _ _ => id, fun _ _ => id, fun _ => rfl⟩ rfl, hm⟩)
  | look g a b o =>
    obtain ⟨hm, ho⟩ := (h.at_ hs).loc
    simp only [stepThread, hs, Option.some.injEq] at hn
    subst hn
    by_cases hsee : s.see g a = true
    · rw [if_pos hsee]
      exact h.moves_to hs ⟨rfl, rfl, rfl⟩ ⟨⟨rfl, rfl, rfl⟩, hm, h.see g a hsee, ho⟩
    · rw [if_neg hsee]
      exact h.moves_to hs ⟨rfl, rfl, rfl⟩ (next_nextGoal hm ho g)
  | tell g a b o =>
    obtain ⟨hm, hsees, ho⟩ := (h.at_ hs).loc
    simp only [stepThread, hs, Option.some.injEq] at hn
    subst hn
    have hb : Sees n s.adj g b := hsees.tail hm
    refine h.goes hs rfl rfl rfl rfl rfl rfl (fun g' u hu => ?_) id .inl ⟨hm, hb, ?_⟩
    · by_cases hg : g' = g
      · subst hg
        by_cases hub : u = b
        · exact .inr (hub ▸ hb)
        · exact .inl (by simpa [St.goto, setGoal, hub] using hu)
      · exact .inl (by simpa [St.goto, setGoal, hg] using hu)
    · refine Grows.contInv ?_ ?_ (h.of t).mine ho
      · exact ⟨fun _ _ => id, fun _ _ => id, id⟩
      · exact ⟨rfl, fun _ => id, fun _ _ => rfl, rfl⟩
  | both g a b o =>
    obtain ⟨hm, hsees, ho⟩ := (h.at_ hs).loc
    simp only [stepThread, hs, Option.some.injEq] at hn
    subst hn
    by_cases hsee : s.see g.other b = true
    · rw [if_pos hsee]
      exact h.moves_to hs ⟨rfl, rfl, rfl⟩ ⟨⟨rfl, rfl, rfl⟩, hm, hsees, h.see _ b hsee, ho⟩
    · rw [if_neg hsee]
      exact h.moves_to hs ⟨rfl, rfl, rfl⟩ (next_nextGoal hm ho g)
  | found g a b o =>
    obtain ⟨hm, hsees, hother, ho⟩ := (h.at_ hs).loc
    simp only [stepThread, hs, Option.some.injEq] at hn
    subst hn
    refine h.decides hs ⟨rfl, rfl, rfl⟩ (h.solved_of_sees hr.end_ hsees hother) (next_nextGoal (s := { s with done := true }) hm ?_ g)
    refine Grows.contInv ?_ ?_ (h.of t).mine ho
    · exact ⟨fun _ _ => id, fun _ _ => id, fun _ => rfl⟩
    · exact ⟨rfl, fun _ => id, fun _ _ => rfl, rfl⟩
  | snapshot g o need =>
    have hb : Back mp s t o := (h.at_ hs).loc
    simp only [stepThread, hs, Option.some.injEq] at hn
    subst hn
    have hnext := next_nextSnapshot hb (need || !s.snap g t && s.see g t) g
    refine h.goes hs rfl rfl rfl hnext.free.1 hnext.free.2.1 hnext.free.2.2 (fun _ _ => .inl) id .inl ?_
    exact hnext.loc.grows (h.of t).mine ⟨fun _ _ => id, fun _ _ => id, id⟩ ⟨rfl, fun _ => id, fun _ _ => rfl, rfl⟩
  | mine o i =>
    have hb : Back mp s t o := (h.at_ hs).loc
    simp only [stepThread, hs] at hn
    by_cases hi : i = t
    · rw [if_pos hi] at hn
      cases hn
      exact h.moves_to hs ⟨rfl, rfl, rfl⟩ (next_checkFrom hb _)
    · rw [if_neg hi] at hn
      cases hn
      by_cases hm : (s.adj t i).mr ≠ -1
      · rw [if_pos hm]
        exact h.moves_to hs ⟨rfl, rfl, rfl⟩ (next_propagate ⟨t.isLt, i.isLt, .inl hm⟩ hb)
      · rw [if_neg hm]
        exact h.moves_to hs ⟨rfl, rfl, rfl⟩ ⟨⟨rfl, rfl, rfl⟩, hb⟩
  | theirs o i =>
    have hb : Back mp s t o := (h.at_ hs).loc
    simp only [stepThread, hs, Option.some.injEq] at hn
    subst hn
    by_cases hm : (s.adj i t).mr ≠ -1
    · rw [if_pos hm]
      exact h.moves_to hs ⟨rfl, rfl, rfl⟩ (next_propagate ⟨t.isLt, i.isLt, .inr hm⟩ hb)
    · rw [if_neg hm]
      exact h.moves_to hs ⟨rfl, rfl, rfl⟩ (next_checkFrom hb _)
  | readDone o =>
    have hb : Back mp s t o := (h.at_ hs).loc
    cases o with
    | none =>
      simp only [stepThread, hs, Option.some.injEq] at hn
      subst hn
      by_cases hd : s.done = true
      · rw [if_pos hd]
        exact h.moves_to hs ⟨rfl, rfl, rfl⟩ ⟨⟨rfl, rfl, rfl⟩, hb, fun _ => hd⟩
      · rw [if_neg hd]
        exact h.moves_to hs ⟨rfl, rfl, rfl⟩ (next_doneCheck hb)
    | some vi =>
      simp only [stepThread, hs] at hn
      by_cases hd : s.done = true
      · rw [if_pos hd] at hn
        cases hn
        exact h.moves_to hs ⟨rfl, rfl, rfl⟩ (next_stop (.inl hd))
      · rw [if_neg hd] at hn
        obtain ⟨cur, hcur, hn⟩ := Option.bind_eq_some_iff.mp hn
        cases hn
        rw [St.entry, peek, if_pos (hb.1.trans_le (h.of t).vi_le), Option.some.injEq] at hcur
        subst hcur
        exact h.moves_to hs ⟨rfl, rfl, rfl⟩ ⟨⟨rfl, rfl, rfl⟩, hb, ⟨vi, hb.1, rfl⟩, fun _ => rfl⟩
  | returned =>
    simp only [stepThread, hs] at hn
    cases hn

/-- **No step is an `ABORT`**, or an access outside of an array. -/
theorem Inv.can_step (h : Inv mp end_ s) (hne : s.loc t ≠ .returned) : ∃ s', stepThread end_ t s = some s' := by
  cases hs : s.loc t with
  | dist vi inner cur =>
    have hl : Looks mp s t vi inner cur := (h.at_ hs).loc
    simp only [stepThread, hs, getCellDistance_eq ((h.of t).mine _ hl.listed).1]
    exact ⟨_, rfl⟩
  | try_ c =>
    have hl : Calls mp s t c c.rest := (h.at_ hs).loc
    have hcur := (h.of t).mine _ hl.looks.listed
    obtain ⟨vi, inner, cur, d, rest⟩ := c
    cases rest with
    | nil =>
      simp only [stepThread, hs]
      exact ⟨_, rfl⟩
    | cons p ps =>
      obtain ⟨e, he⟩ : ∃ e, p = Maze.step cur e := hl.near p List.mem_cons_self
      simp only [stepThread, hs, he, Maze.cellsConnected_step hcur.1]
      exact ⟨_, rfl⟩
  | read c p =>
    simp only [stepThread, hs, Maze.getCell_eq (h.base.exists_iff.mpr (opens_inside (h.at_ hs).loc.2))]
    exact ⟨_, rfl⟩
  | cas c p old =>
    have hp := h.base.exists_iff.mpr (opens_inside (h.at_ hs).loc.2.1)
    simp only [stepThread, hs, Maze.getCell_eq hp, setCell_eq hp, Option.bind_eq_bind, Option.bind_some]
    split <;> exact ⟨_, rfl⟩
  | setDist c p =>
    simp only [stepThread, hs, setCellDistance_eq ((h.at_ hs).pend p rfl).1.1]
    exact ⟨_, rfl⟩
  | extend vi p =>
    simp only [stepThread, hs, if_pos ((h.at_ hs).room rfl)]
    exact ⟨_, rfl⟩
  | nextCell vi =>
    simp only [stepThread, hs]
    split
    · exact ⟨_, rfl⟩
    · rename_i hgo
      have hlt : vi + 1 < (s.mp.mcp t).vi := not_le.mp (not_or.mp hgo).1
      rw [St.entry, peek, if_pos (hlt.trans_le (h.of t).vi_le)]
      exact ⟨_, rfl⟩
  | tid c p =>
    obtain ⟨-, ho, u, hu⟩ := (h.at_ hs).loc
    have hlt := h.base.owner p (opens_inside ho) hu.2.1
    simp only [stepThread, hs, getCellTid_eq hu.1, Option.bind_eq_bind, Option.bind_some, dif_pos hlt]
    split <;> exact ⟨_, rfl⟩
  | mine o i =>
    simp only [stepThread, hs]
    split <;> exact ⟨_, rfl⟩
  | readDone o =>
    have hb : Back mp s t o := (h.at_ hs).loc
    cases o with
    | none =>
      simp only [stepThread, hs]
      exact ⟨_, rfl⟩
    | some vi =>
      simp only [stepThread, hs]
      split
      · exact ⟨_, rfl⟩
      · rw [St.entry, peek, if_pos (hb.1.trans_le (h.of t).vi_le)]
        exact ⟨_, rfl⟩
  | returned => exact absurd hs hne
  | _ =>
    simp only [stepThread, hs]
    exact ⟨_, rfl⟩

theorem inv_init (hr : Ready n mp end_) (h : Init mp s) : Inv mp end_ s := by
  obtain ⟨hmp, hadj, hsee, -, hdone, hloc⟩ := h
  have hpart : ∀ (t : Fin n) p, InPart mp t p ↔ p = (mp.mcp t).start := fun t p => by
    constructor
    · intro hp
      obtain ⟨u, hu, rfl⟩ := hr.only p hp.1 hp.2.1
      have : u = t := (hr.started u hu).2.2.1.symm.trans hp.2.2
      rw [this]
    · rintro rfl
      obtain ⟨he, hv, hc, -⟩ := hr.started t t.isLt
      exact ⟨he, hv, hc⟩
  have hvi : ∀ t : Fin n, (s.mp.mcp t).vi = 1 := fun t => hmp ▸ (hr.listed t t.isLt).1
  have hfirst : ∀ t : Fin n, (s.mp.mcp t).visited 0 = (mp.mcp t).start := fun t => hmp ▸ (hr.listed t t.isLt).2
  have hlist : ∀ (t : Fin n) p, Listed s t p ↔ p = (mp.mcp t).start := fun t p => by
    unfold Listed
    rw [hvi, ← hfirst]
    exact ⟨fun ⟨i, hi, he⟩ => by rw [← he, Nat.lt_one_iff.mp hi], fun he => ⟨0, Nat.one_pos, he.symm⟩⟩
  have hzero : ∀ (t : Fin n) {i}, i < (s.mp.mcp t).vi → i = 0 := fun t i hi => by
    rw [hvi] at hi
    omega
  refine ⟨?_, fun t => ?_, fun g t hg => ?_, fun hd => by rw [hdone] at hd; cases hd⟩
  · rw [hmp]
    exact ⟨rfl, rfl, fun _ => rfl, fun _ => rfl, fun _ => rfl, fun p hp hv => ⟨hr.cookie p hp hv, hr.distance p hp hv⟩,
      fun p hp hv => by
        obtain ⟨u, hu, rfl⟩ := hr.only p hp hv
        rw [(hr.started u hu).2.2.1]
        exact hu⟩
  · exact {
      pos := hvi t ▸ Nat.one_pos
      first := hfirst t
      mine := fun p hp => hmp ▸ (hpart t p).mpr ((hlist t p).mp hp)
      inj := fun i hi j hj _ => (hzero t hi).trans (hzero t hj).symm
      cover := fun p hp => .inl ((hlist t p).mpr ((hpart t p).mp (hmp ▸ hp)))
      pend := fun p hp => by
        rw [hloc] at hp
        cases hp
      prev := fun p hp hps => absurd ((hpart t p).mp (hmp ▸ hp)) hps
      one := hmp ▸ (hr.started t t.isLt).2.2.2.1
      met := fun b => .inl (hadj t b)
      loc := by
        rw [hloc, ← hmp]
        exact ⟨⟨hvi t ▸ Nat.one_pos, fun i hi => absurd hi (Nat.not_lt_zero i)⟩,
          (hlist t _).mpr (hfirst t), fun _ => rfl⟩ }
  · rw [hsee, decide_eq_true_iff] at hg
    rw [Sees, hg]

end Children
end MazePart
end Perfbook
