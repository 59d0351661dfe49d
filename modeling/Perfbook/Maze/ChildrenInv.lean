/-
# What the threads that solve a maze in partitions know

A thread owns the cells that have its ID (`InPart`). Its list has all of them but the one that it is about to
append, and it has come to each from one that is nearer to its start (`Of`). The neighbours of the entries before
the one it explores are its own, or those of a thread for which it has an entry in `adj[]` (`Explored`). So when it
has nothing left to explore, its encounters lead to every other partition that is next to its own.

A thread that sees the start is connected with thread 0 by encounters, and one that sees the end with thread 1
(`Sees`).

Key definitions: `Base`, `Handled`, `Explored`, `Calls`, `LocInv`, `Of`, `Inv`, `Grows`, `Own`.
Key theorems: `LocInv.grows`, `Of.grows`, `Of.goes`, `Inv.goes`.
-/
import Perfbook.Conc.Lock
import Perfbook.Maze.Children
import Perfbook.Maze.FgStep

namespace Perfbook
namespace MazePart
namespace Children

open Maze (Rowcol Cell)
open Relation (ReflTransGen)

/-- The cell that a thread has visited and not yet appended. -/
def Loc.pending {n : ℕ} : Loc n → Option Rowcol
  | .setDist _ p | .extend _ p => some p
  | _ => none

/-- The cell that has no distance yet. -/
def Loc.undated {n : ℕ} : Loc n → Option Rowcol
  | .setDist _ p => some p
  | _ => none

/-- The thread with which an encounter is not yet complete. -/
def Loc.records {n : ℕ} : Loc n → Option ℕ
  | .setRest _ _ j => some j
  | _ => none

/-- What does not change of the maze, and what the cells hold. -/
structure Base (n : ℕ) (mp m : MazePart) : Prop where
  nrows : m.nrows = mp.nrows
  ncols : m.ncols = mp.ncols
  wall : ∀ p, (m.cell p).wall = (mp.cell p).wall
  solution : ∀ p, (m.cell p).solution = (mp.cell p).solution
  start : ∀ t, (m.mcp t).start = (mp.mcp t).start
  fresh : ∀ p, mp.CellExists p → (m.cell p).visited = false → (m.cell p).cookie = 0 ∧ m.distance p = 0
  owner : ∀ p, mp.CellExists p → (m.cell p).visited = true → (m.cell p).cookie < n

variable {n : ℕ}

/-- A thread with an encounter on the way to `t` can see the goal. -/
def Sees (n : ℕ) (adj : Adj) (g : Goal) (t : ℕ) : Prop := ReflTransGen (Met n adj) g.root t

/-- Thread `t` knows how to get to the cell `q`: it is its own, or one of a thread that it has met. -/
def Handled (s : St n) (t : Fin n) (q : Rowcol) : Prop :=
  ∃ u, InPart s.mp u q ∧ (u = t ∨ (s.adj t u).mr ≠ -1)

/-- The first `k` entries of the thread have no neighbour left. -/
def Explored (mp : MazePart) (s : St n) (t : Fin n) (k : ℕ) : Prop :=
  ∀ i < k, ∀ q, mp.Opens ((s.mp.mcp t).visited i) q → Handled s t q

/-- The cell is in the list of the thread. -/
def Listed (s : St n) (t : Fin n) (p : Rowcol) : Prop := ∃ i < (s.mp.mcp t).vi, (s.mp.mcp t).visited i = p

/-- The thread need not go on. -/
def Over (mp : MazePart) (s : St n) (t : Fin n) : Prop :=
  s.done = true ∨ Explored mp s t (s.mp.mcp t).vi

/-- A thread that goes back to its entry, or to the last loop. -/
def Back (mp : MazePart) (s : St n) (t : Fin n) : Option ℕ → Prop
  | some vi => vi < (s.mp.mcp t).vi ∧ Explored mp s t vi
  | none => Over mp s t

/-- The thread explores `cur` for its entry `vi`. -/
structure Looks (mp : MazePart) (s : St n) (t : Fin n) (vi : ℕ) (inner : Bool) (cur : Rowcol) : Prop where
  back : Back mp s t (some vi)
  listed : Listed s t cur
  outer : inner = false → cur = (s.mp.mcp t).visited vi

/-- In a call of `maze_find_any_next_cell`, with the neighbours `left`. -/
structure Calls (mp : MazePart) (s : St n) (t : Fin n) (c : Call) (left : List Rowcol) : Prop where
  looks : Looks mp s t c.vi c.inner c.cur
  d : c.d = s.mp.distance c.cur + 1
  near : ∀ q ∈ left, ∃ e, q = Maze.step c.cur e
  left : c.inner = false → ∀ q, mp.Opens c.cur q → q ∈ left ∨ Handled s t q

def ContInv (mp : MazePart) (s : St n) (t : Fin n) : Cont n → Prop
  | .meet c _ j => Calls mp s t c c.rest ∧ (s.adj t j).mr ≠ -1
  | .check k _ => Back mp s t k

/-- What holds of thread `t` at a place. -/
def LocInv (mp : MazePart) (s : St n) (t : Fin n) : Loc n → Prop
  | .dist vi inner cur => Looks mp s t vi inner cur
  | .try_ c => Calls mp s t c c.rest
  | .read c p => Calls mp s t c (p :: c.rest) ∧ mp.Opens c.cur p
  | .cas c p old => Calls mp s t c (p :: c.rest) ∧ mp.Opens c.cur p ∧ old.visited = false
  | .setDist c p => Looks mp s t c.vi c.inner c.cur ∧ c.d = s.mp.distance c.cur + 1 ∧ mp.Opens c.cur p
  | .extend vi _ => Back mp s t (some vi)
  | .onward vi p => Back mp s t (some vi) ∧ Listed s t p
  | .nextCell vi => vi < (s.mp.mcp t).vi ∧ Explored mp s t (vi + 1)
  | .tid c p => Calls mp s t c (p :: c.rest) ∧ mp.Opens c.cur p ∧ ∃ u, InPart s.mp u p
  | .setMr c p j => Calls mp s t c (p :: c.rest) ∧ mp.Opens c.cur p ∧ InPart s.mp j p ∧ j ≠ t
  | .setRest c p j => Calls mp s t c c.rest ∧ mp.Opens c.cur p ∧ InPart s.mp j p ∧ j ≠ t ∧
      (s.adj t j).mr = c.cur.1
  | .setDone c j => Calls mp s t c c.rest ∧ (s.adj t j).mr ≠ -1 ∧ n = 2 ∧ j ≠ t
  | .look _ a b k => Met n s.adj a b ∧ ContInv mp s t k
  | .tell g a b k => Met n s.adj a b ∧ Sees n s.adj g a ∧ ContInv mp s t k
  | .both g a b k => Met n s.adj a b ∧ Sees n s.adj g b ∧ ContInv mp s t k
  | .found g a b k =>
      Met n s.adj a b ∧ Sees n s.adj g b ∧ Sees n s.adj g.other b ∧ ContInv mp s t k
  | .snapshot _ k _ | .mine k _ | .theirs k _ | .readDone k => Back mp s t k
  | .returned => Over mp s t ∧ (2 < n → s.done = true)

/-- What a thread at `l` has done. -/
structure Of (mp : MazePart) (s : St n) (t : Fin n) (l : Loc n) : Prop where
  pos : 0 < (s.mp.mcp t).vi
  first : (s.mp.mcp t).visited 0 = (mp.mcp t).start
  mine : ∀ p, Listed s t p → InPart s.mp t p
  inj : ∀ i < (s.mp.mcp t).vi, ∀ j < (s.mp.mcp t).vi,
    (s.mp.mcp t).visited i = (s.mp.mcp t).visited j → i = j
  cover : ∀ p, InPart s.mp t p → Listed s t p ∨ l.pending = some p
  pend : ∀ p, l.pending = some p → InPart s.mp t p ∧ ¬ Listed s t p
  prev : ∀ p, InPart s.mp t p → p ≠ (mp.mcp t).start → l.undated = some p ∨
    ∃ q, Listed s t q ∧ mp.Opens p q ∧ s.mp.distance p = s.mp.distance q + 1
  one : s.mp.distance (mp.mcp t).start = 1
  met : ∀ b, s.adj t b = .unset ∨ Encounter s.mp t b (s.adj t b) ∨ l.records = some b
  loc : LocInv mp s t l

/-- The end is in a partition to which encounters lead from the start. -/
def Solved (s : St n) (end_ : Rowcol) : Prop :=
  ∃ t, InPart s.mp t end_ ∧ ReflTransGen (Met n s.adj) 0 t

structure Inv (mp : MazePart) (end_ : Rowcol) (s : St n) : Prop where
  base : Base n mp s.mp
  of : ∀ t, Of mp s t (s.loc t)
  see : ∀ g (t : Fin n), s.see g t = true → Sees n s.adj g t
  solved : s.done = true → Solved s end_

/-- Nothing that was visited, met, seen or decided is lost. -/
structure Grows (s s' : St n) : Prop where
  part : ∀ u p, InPart s.mp u p → InPart s'.mp u p
  met : ∀ a b, (s.adj a b).mr ≠ -1 → (s'.adj a b).mr ≠ -1
  done : s.done = true → s'.done = true

/-- The step is none of thread `t`. -/
structure Own (s s' : St n) (t : Fin n) : Prop where
  mcp : s'.mp.mcp t = s.mp.mcp t
  part : ∀ p, InPart s'.mp t p → InPart s.mp t p
  distance : ∀ p, InPart s.mp t p → s'.mp.distance p = s.mp.distance p
  adj : s'.adj t = s.adj t

variable {mp m : MazePart} {end_ p q cur : Rowcol} {s s' : St n} {t u : Fin n} {l l' : Loc n} {g : Goal}
  {vi k : ℕ} {inner : Bool} {c : Call} {left : List Rowcol} {a b : ℕ}

/-! ### The maze -/

theorem InPart.eq (h : InPart m a p) (h' : InPart m b p) : a = b := h.2.2.symm.trans h'.2.2

namespace Base

variable (h : Base n mp m)
include h

theorem exists_iff : m.CellExists p ↔ mp.CellExists p := by
  simp only [Maze.CellExists, h.nrows, h.ncols]

theorem opens_iff : m.Opens p q ↔ mp.Opens p q := by
  unfold Maze.Opens
  simp only [h.exists_iff, h.wall]

theorem size : m.size = mp.size := by
  rw [Maze.size, Maze.size, h.nrows, h.ncols]

/-- Every visited cell is that of a thread. -/
theorem thread (hp : mp.CellExists p) (hv : (m.cell p).visited = true) : ∃ u : Fin n, InPart m u p :=
  ⟨⟨(m.cell p).cookie, h.owner p hp hv⟩, h.exists_iff.mpr hp, hv, rfl⟩

end Base

/-! ### What a step leaves as it is -/

theorem Own.listed (ho : Own s s' t) : Listed s' t p ↔ Listed s t p := by
  unfold Listed
  rw [ho.mcp]

namespace Grows

variable (hg : Grows s s')
include hg

theorem met' (h : Met n s.adj a b) : Met n s'.adj a b :=
  ⟨h.1, h.2.1, h.2.2.imp (hg.met a b) (hg.met b a)⟩

theorem reach (h : ReflTransGen (Met n s.adj) a b) : ReflTransGen (Met n s'.adj) a b :=
  ReflTransGen.mono (fun _ _ => hg.met') _ _ h

theorem solved (h : Solved s end_) : Solved s' end_ := by
  obtain ⟨t, ht, hr⟩ := h
  exact ⟨t, hg.part t end_ ht, hg.reach hr⟩

theorem handled (h : Handled s t q) : Handled s' t q := by
  obtain ⟨u, hu, hmet⟩ := h
  exact ⟨u, hg.part u q hu, hmet.imp_right (hg.met t u)⟩

theorem explored (hm : s'.mp.mcp t = s.mp.mcp t) (h : Explored mp s t k) : Explored mp s' t k := by
  intro i hi q ho
  rw [hm] at ho
  exact hg.handled (h i hi q ho)

variable (ho : Own s s' t)
include ho

theorem isOver (h : Over mp s t) : Over mp s' t := by
  refine h.imp hg.done fun he => ?_
  rw [ho.mcp]
  exact hg.explored ho.mcp he

theorem back {o : Option ℕ} (h : Back mp s t o) : Back mp s' t o := by
  cases o with
  | none => exact hg.isOver ho h
  | some vi => exact ⟨by rw [ho.mcp]; exact h.1, hg.explored ho.mcp h.2⟩

theorem looks (h : Looks mp s t vi inner cur) : Looks mp s' t vi inner cur :=
  ⟨hg.back ho h.back, ho.listed.mpr h.listed, fun hi => by rw [ho.mcp]; exact h.outer hi⟩

variable (hmine : ∀ p, Listed s t p → InPart s.mp t p)
include hmine

theorem calls (h : Calls mp s t c left) : Calls mp s' t c left :=
  ⟨hg.looks ho h.looks, by rw [ho.distance _ (hmine _ h.looks.listed)]; exact h.d, h.near,
    fun hi q hq => (h.left hi q hq).imp_right hg.handled⟩

theorem contInv {o : Cont n} (h : ContInv mp s t o) : ContInv mp s' t o := by
  cases o with
  | meet c second j => exact ⟨hg.calls ho hmine h.1, hg.met t j h.2⟩
  | check k i => exact hg.back ho h

end Grows

/-- **What a thread knows stays true** while others go on. -/
theorem LocInv.grows (h : LocInv mp s t l) (hmine : ∀ p, Listed s t p → InPart s.mp t p) (hg : Grows s s')
    (ho : Own s s' t) : LocInv mp s' t l := by
  cases l with
  | dist vi inner cur => exact hg.looks ho h
  | try_ c => exact hg.calls ho hmine h
  | read c p => exact ⟨hg.calls ho hmine h.1, h.2⟩
  | cas c p old => exact ⟨hg.calls ho hmine h.1, h.2⟩
  | setDist c p =>
    obtain ⟨hl, hd, hp⟩ := h
    exact ⟨hg.looks ho hl, by rw [ho.distance _ (hmine _ hl.listed)]; exact hd, hp⟩
  | extend vi p => exact hg.back ho (o := some vi) h
  | onward vi p => exact ⟨hg.back ho h.1, ho.listed.mpr h.2⟩
  | nextCell vi => exact ⟨by rw [ho.mcp]; exact h.1, hg.explored ho.mcp h.2⟩
  | tid c p =>
    obtain ⟨hc, hp, u, hu⟩ := h
    exact ⟨hg.calls ho hmine hc, hp, u, hg.part u p hu⟩
  | setMr c p j => exact ⟨hg.calls ho hmine h.1, h.2.1, hg.part j p h.2.2.1, h.2.2.2⟩
  | setRest c p j =>
    obtain ⟨hc, hp, hj, hne, hm⟩ := h
    exact ⟨hg.calls ho hmine hc, hp, hg.part j p hj, hne, by rw [ho.adj]; exact hm⟩
  | setDone c j => exact ⟨hg.calls ho hmine h.1, hg.met t j h.2.1, h.2.2⟩
  | look g a b k => exact ⟨hg.met' h.1, hg.contInv ho hmine h.2⟩
  | tell g a b k | both g a b k => exact ⟨hg.met' h.1, hg.reach h.2.1, hg.contInv ho hmine h.2.2⟩
  | found g a b k => exact ⟨hg.met' h.1, hg.reach h.2.1, hg.reach h.2.2.1, hg.contInv ho hmine h.2.2.2⟩
  | snapshot g k need | mine k i | theirs k i | readDone k => exact hg.back ho h
  | returned => exact ⟨hg.isOver ho h.1, fun hn => hg.done (h.2 hn)⟩

theorem Encounter.grows {e : Rowcolpair} (hg : Grows s s') (hs : Base n mp s.mp) (hs' : Base n mp s'.mp)
    (h : Encounter s.mp a b e) : Encounter s'.mp a b e :=
  ⟨hg.part a _ h.mine, hg.part b _ h.theirs, hs'.opens_iff.mpr (hs.opens_iff.mp h.opens)⟩

/-- The start of a thread is its own. -/
theorem Of.start (h : Of mp s t l) : InPart s.mp t (mp.mcp t).start :=
  h.mine _ ⟨0, h.pos, h.first⟩

namespace Of

variable (h : Of mp s t l) (hg : Grows s s') (ho : Own s s' t)
include h hg ho

theorem grows (hs : Base n mp s.mp) (hs' : Base n mp s'.mp) : Of mp s' t l where
  pos := by rw [ho.mcp]; exact h.pos
  first := by rw [ho.mcp]; exact h.first
  mine p hp := hg.part t p (h.mine p (ho.listed.mp hp))
  inj := by
    rw [ho.mcp]
    exact h.inj
  cover p hp := (h.cover p (ho.part p hp)).imp_left ho.listed.mpr
  pend p hp := (h.pend p hp).imp (hg.part t p) fun hn hl => hn (ho.listed.mp hl)
  prev p hp hne := by
    refine (h.prev p (ho.part p hp) hne).imp_right fun ⟨q, hq, hpq, hd⟩ => ⟨q, ho.listed.mpr hq, hpq, ?_⟩
    rw [ho.distance p (ho.part p hp), ho.distance q (h.mine q hq)]
    exact hd
  one := by
    rw [ho.distance _ h.start]
    exact h.one
  met b := by
    rw [ho.adj]
    exact (h.met b).imp_right fun hm => hm.imp_left fun he => Encounter.grows hg hs hs' he
  loc := h.loc.grows h.mine hg ho

omit hg ho in
/-- The thread goes on. -/
theorem goes (hpend : l'.pending = l.pending) (hun : l'.undated = l.undated) (hrec : l'.records = l.records)
    (hl : LocInv mp s t l') : Of mp s t l' :=
  { h with
    cover := by rw [hpend]; exact h.cover
    pend := by rw [hpend]; exact h.pend
    prev := by rw [hun]; exact h.prev
    met := by rw [hrec]; exact h.met
    loc := hl }

end Of

namespace Inv

variable (h : Inv mp end_ s)
include h

/-- After a step of `t`, only what `t` has done and what is seen or decided is left to show. -/
theorem of_step (hg : Grows s s') (hloc : s'.loc = Function.update s.loc t l) (hb : Base n mp s'.mp)
    (hu : ∀ u, u ≠ t → Own s s' u) (ht : Of mp s' t l)
    (hsee : ∀ g (u : Fin n), s'.see g u = true → s.see g u = true ∨ Sees n s'.adj g u)
    (hdone : s'.done = true → s.done = true ∨ Solved s' end_) : Inv mp end_ s' where
  base := hb
  of := Conc.forall_update hloc ht fun u hut => (h.of u).grows hg (hu u hut) h.base hb
  see g u hs := (hsee g u hs).elim (fun hs => hg.reach (h.see g u hs)) id
  solved hd := (hdone hd).elim (fun hd => hg.solved (h.solved hd)) id

/-- A step that leaves the cells and the encounters as they are. -/
theorem goes (hs : s.loc t = l) (hloc : s'.loc = Function.update s.loc t l') (hmp : s'.mp = s.mp)
    (hadj : s'.adj = s.adj) (hpend : l'.pending = l.pending) (hun : l'.undated = l.undated)
    (hrec : l'.records = l.records)
    (hsee : ∀ g (u : Fin n), s'.see g u = true → s.see g u = true ∨ Sees n s.adj g u)
    (hkeep : s.done = true → s'.done = true) (hdone : s'.done = true → s.done = true ∨ Solved s end_)
    (hl : LocInv mp s' t l') : Inv mp end_ s' := by
  have hg : Grows s s' := ⟨fun u p hp => hmp ▸ hp, fun a b hm => hadj ▸ hm, hkeep⟩
  have ho : ∀ u, Own s s' u := fun u => ⟨by rw [hmp], fun p hp => hmp ▸ hp, fun p _ => by rw [hmp], by rw [hadj]⟩
  have hb : Base n mp s'.mp := by
    rw [hmp]
    exact h.base
  refine h.of_step hg hloc hb (fun u _ => ho u) ?_ (fun g u hu => ?_) fun hd => (hdone hd).imp_right hg.solved
  · have ht := (h.of t).grows hg (ho t) h.base hb
    rw [hs] at ht
    exact ht.goes hpend hun hrec hl
  · rw [hadj]
    exact hsee g u hu

/-- A step that only goes on. -/
theorem moves (hs : s.loc t = l) (hpend : l'.pending = l.pending) (hun : l'.undated = l.undated)
    (hrec : l'.records = l.records) (hl : LocInv mp s t l') : Inv mp end_ (s.goto t l') :=
  h.goes hs rfl rfl rfl hpend hun hrec (fun _ _ => .inl) id .inl
    (hl.grows (h.of t).mine ⟨fun _ _ => id, fun _ _ => id, id⟩ ⟨rfl, fun _ => id, fun _ _ => rfl, rfl⟩)

end Inv

end Children
end MazePart
end Perfbook
