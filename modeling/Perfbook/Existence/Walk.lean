/-
# The walk over a group, step by step

While `F` walks over the group `egp` in `existence_flip` or
`existence_backout`, other threads put heads, also members of `egp`, into
other groups. The group is built at the start (`Built`): its lists are `L`,
and each head on them carries the group's tag. Everything else is arbitrary,
also the lists of the other groups.

`existence_cleanup_gone` ends in `call_rcu`. The callback may give the memory
of the head back, and then it is used for something else (`Mem`). RCU keeps
it until every call that was on the head has returned (`Walking`), but the
walk is in no read-side critical section: it loads the `next` of a head after
the body of the loop, which claimed or retired the head.

The walk has a part of each list behind it and a part before it, and the
heads of the part before it are members still (`WalkInv`). A step of another
thread changes only heads that carry no tag of `egp` or are retired, and
links that the walk will not load (`Others`), if it leaves the `next` alone
that the walk is about to load (`RelinkOk`); a step of the walk moves one
head from the part before it to the part behind (`walk_step`).

Key definitions: `Mem`, `Built`, `RelinkOk`, `WalkInv`, `OtherInv`, `Inv`, `Others`, `WalkStep`.
Key theorems: `WalkInv.visited`, `Others.walk`, `other_step`, `walk_step`.
-/
import Perfbook.Existence.Lock
import Perfbook.Conc.Path

namespace Perfbook
namespace Existence

open Conc

/-- The walk is between the body of a loop for `h`, which stores 0 to its
`eh_egi` or retires it, and the load of its `next`. -/
def Loc.atNext {H : Type} [DecidableEq H] (h : H) : Loc H → Bool
  | .clearNext _ _ (.head h') | .cleanNext _ _ (.head h') => h' = h
  | _ => false

/-- The thread is in a call on `h`. -/
def Loc.calls {H : Type} [DecidableEq H] (h : H) : Loc H → Bool
  | .ehAdd h' _ | .add _ h' _ _ | .lock h' _ | .gone h' _ | .egi h' _ | .bugTag h' _ | .setTag h' _
  | .unlock h' _ | .loadEgi h' | .loadState h' _ => h' = h
  | _ => false

namespace Walk

variable {τ H : Type}

/-! ### The memory of the heads -/

/-- The state, with what `call_rcu` knows. -/
structure Mem (τ H : Type) where
  st : St τ H
  /-- `call_rcu` was called, and the callback has not run yet -/
  queued : H → Bool
  /-- `eh_free` gave the memory back -/
  freed : H → Bool

/-- What may be in the memory of a head. -/
structure Content (H : Type) where
  egi : Word
  gone : Bool
  next : Link H
  prev : Link H

/-- What happens: a thread moves, a callback runs, or memory is used again. -/
inductive Ev (τ H : Type)
  | act (a : Act τ H)
  /-- `existence_head_rcu_cb`, whose `eh_free` gives the memory back or does not -/
  | callback (h : H) (frees : Bool)
  | overwrite (h : H) (c : Content H)

section
variable [DecidableEq τ] [DecidableEq H]

/-- `existence_cleanup_gone` ends in `call_rcu`; it is one step with the
`spin_unlock` before it. -/
def callRcu (a : Act τ H) (s : St τ H) (queued : H → Bool) : H → Bool :=
  match a with
  | .step t =>
    match s.loc t with
    | .cleanUnlock _ _ h => Function.update queued h true
    | _ => queued
  | _ => queued

/-- `existence_head_rcu_cb`. -/
def Mem.callback (m : Mem τ H) (h : H) (frees : Bool) : Mem τ H :=
  { m with
    queued := Function.update m.queued h false
    freed := if frees then Function.update m.freed h true else m.freed }

/-- Nobody can lock what is no head, and the `eh_lock` of a new one is free. -/
def Mem.overwrite (m : Mem τ H) (h : H) (c : Content H) : Mem τ H :=
  { m with st := { m.st with
      egi := Function.update m.st.egi h c.egi
      gone := Function.update m.st.gone h c.gone
      lock := Function.update m.st.lock h none
      next := Function.update m.st.next (.head h) c.next
      prev := Function.update m.st.prev (.head h) c.prev } }

def Mem.next : Ev τ H → Mem τ H → Option (Mem τ H)
  | .act a, m =>
    (Existence.next a m.st).map fun s => { m with st := s, queued := callRcu a m.st m.queued }
  | .callback h frees, m => if m.queued h then some (m.callback h frees) else none
  | .overwrite h c, m => if m.freed h then some (m.overwrite h c) else none

end

/-! ### The runs -/

/-- The group `egp` is built, with the lists `L`, and no call runs. -/
structure Built (egp : Group) (L : Side → List H) (s : St τ H) : Prop where
  loc : ∀ t, s.loc t = .idle
  lock : ∀ h, s.lock h = none
  egState : ∀ g : Group, s.egState g.1 = 0
  path : ∀ d, Path s.next (s.next (.list egp d)) ((L d).map .head) (.list egp d)
  nodup : ∀ d, (L d).Nodup
  egi : ∀ d, ∀ h ∈ L d, s.egi h = tag egp d
  gone : ∀ d, ∀ h ∈ L d, s.gone h = false
  phase : s.phase egp = .building
  cleared : s.cleared egp = []
  cleaned : s.cleaned egp = []
  steps : s.steps egp = 0

/-- The runs that start with `egp` built, and no head retired. -/
def builtSys (τ H : Type) [DecidableEq τ] [DecidableEq H] (egp : Group) (L : Side → List H) :
    Sys (Mem τ H) (Ev τ H) :=
  ⟨fun m => Built egp L m.st ∧ (∀ h, m.queued h = false) ∧ ∀ h, m.freed h = false, Mem.next⟩

/-- `F` flips or backs out `egp`, once; the other threads put heads into
other groups, in read-side critical sections: a head on which a call runs
is not freed, and its memory not used for something else. -/
def Walking [DecidableEq H] (F : τ) (egp : Group) (e : Ev τ H) (m : Mem τ H) : Prop :=
  match e with
  | .act (.walk _ t g) => t = F ∧ g = egp ∧ m.st.phase egp = .building
  | .act (.setOutgoing t _ g) => t ≠ F ∧ g ≠ egp
  | .act (.step _) => True
  | .act _ => False
  | .callback h _ | .overwrite h _ => ∀ t, (m.st.loc t).calls h = false

/-- When the walk is about to load the `next` of a head, no thread that claims
the head stores to it, and the head is not freed. -/
def RelinkOk [DecidableEq H] (F : τ) (egp : Group) (e : Ev τ H) (m : Mem τ H) : Prop :=
  Walking F egp e m ∧
    match e with
    | .act (.step t) =>
      match m.st.loc t with
      | .add _ h _ (.setNext _) => (m.st.loc F).atNext h = false
      | _ => True
    | .callback h frees => frees = true → (m.st.loc F).atNext h = false
    | _ => True

/-! ### The invariant -/

/-- From `x` on, a list of `egp` has the heads `l`, which are members still. -/
structure Rest (egp : Group) (d : Side) (s : St τ H) (x : Link H) (l : List H) : Prop where
  path : Path s.next x (l.map .head) (.list egp d)
  egi : ∀ h ∈ l, s.egi h = tag egp d
  gone : ∀ h ∈ l, s.gone h = false

/-- The first loop has visited `done`, and has `rest` before it, from `x` on. -/
structure Clearing (egp : Group) (L : Side → List H) (k : Kind) (s : St τ H) (x : Link H)
    (done rest : List H) (n : ℕ) : Prop where
  phase : s.phase egp = .running k
  split : L k.clearSide = done ++ rest
  cleared : s.cleared egp = done
  cleaned : s.cleaned egp = []
  rest : Rest egp k.clearSide s x rest
  other : Rest egp k.cleanSide s (s.next (.list egp k.cleanSide)) (L k.cleanSide)
  steps : s.steps egp ≤ n + 2 * done.length

/-- The second loop has visited `done`, is retiring `cur`, and has `rest`
before it, from `x` on. -/
structure Cleaning (egp : Group) (L : Side → List H) (k : Kind) (s : St τ H) (x : Link H)
    (done cur rest : List H) (n : ℕ) : Prop where
  phase : s.phase egp = .running k
  split : L k.cleanSide = done ++ cur ++ rest
  cleared : s.cleared egp = L k.clearSide
  cleaned : s.cleaned egp = done
  rest : Rest egp k.cleanSide s x rest
  steps : s.steps egp ≤ n + 2 * (L k.clearSide).length + 5 * done.length

/-- The walk has not begun. -/
structure Before (egp : Group) (L : Side → List H) (s : St τ H) (n : ℕ) : Prop where
  phase : s.phase egp = .building
  list : ∀ d, Rest egp d s (s.next (.list egp d)) (L d)
  egState : s.egState egp.1 = 0
  cleared : s.cleared egp = []
  cleaned : s.cleaned egp = []
  steps : s.steps egp ≤ n

/-- The walk is over. -/
structure After (egp : Group) (L : Side → List H) (k : Kind) (s : St τ H) : Prop where
  phase : s.phase egp = .finished k
  cleared : s.cleared egp = L k.clearSide
  cleaned : s.cleaned egp = L k.cleanSide
  steps : s.steps egp ≤ 4 + 2 * (L k.clearSide).length + 5 * (L k.cleanSide).length

/-- What holds of `F` at a place. The head that a loop goes on from may be in
another group by then. -/
def WalkInv (egp : Group) (L : Side → List H) (s : St τ H) : Loc H → Prop
  | .idle => Before egp L s 0 ∨ ∃ k, After egp L k s
  | .bug _ g => g = egp ∧ Before egp L s 0
  | .setState g => g = egp ∧ Before egp L s 1
  | .clearNext k g x => g = egp ∧ (x = .list egp k.clearSide ∨ ∃ h, x = .head h) ∧
      ∃ done rest, Clearing egp L k s (s.next x) done rest 2
  | .clear k g x => g = egp ∧ ∃ done h rest, Clearing egp L k s x done (h :: rest) 3
  | .cleanNext k g x => g = egp ∧
      (x = .list egp k.cleanSide ∨ ∃ h, x = .head h) ∧
      ∃ done rest, Cleaning egp L k s (s.next x) done [] rest 3
  | .cleanLock k g x => g = egp ∧ ∃ done h rest, Cleaning egp L k s x done [] (h :: rest) 4
  | .cleanBug k g h => g = egp ∧ ∃ done rest, Cleaning egp L k s (.head h) done [] (h :: rest) 5
  | .cleanGone k g h => g = egp ∧ ∃ done rest, Cleaning egp L k s (.head h) done [] (h :: rest) 6
  | .cleanUnlock k g h => g = egp ∧ s.egi h = tag egp k.cleanSide ∧
      ∃ done rest, Cleaning egp L k s (s.next (.head h)) done [h] rest 7
  | _ => False

/-- What holds of another thread at a place: it puts a head into another
group. -/
def OtherInv (egp : Group) (s : St τ H) : Loc H → Prop
  | .idle => True
  | .lock _ g | .gone _ g | .egi _ g => g ≠ egp
  | .bugTag h g | .setTag h g => g ≠ egp ∧ s.egi h = 0
  | .add d h g _ => d = .outgoing ∧ g ≠ egp ∧ s.egi h = tag g .outgoing
  | .unlock _ _ => True
  | _ => False

structure Inv (F : τ) (egp : Group) (L : Side → List H) (s : St τ H) : Prop where
  lock : LockInv s
  nodup : ∀ d, (L d).Nodup
  zero : ∀ g : Group, g ≠ egp → s.egState g.1 = 0
  walk : WalkInv egp L s (s.loc F)
  others : ∀ u, u ≠ F → OtherInv egp s (s.loc u)

variable {F u t : τ} {egp : Group} {L : Side → List H} {s s' : St τ H}

/-! ### What is left of a list -/

theorem Rest.cons {d : Side} {x : Link H} {h : H} {l : List H} (hr : Rest egp d s x (h :: l)) :
    x = .head h ∧ Rest egp d s (s.next (.head h)) l := by
  obtain ⟨hx, hp⟩ := hr.path
  exact ⟨hx, hp, fun a ha => hr.egi a (List.mem_cons_of_mem _ ha),
    fun a ha => hr.gone a (List.mem_cons_of_mem _ ha)⟩

/-- Loading a link tells whether the list ends here. -/
theorem Rest.end_iff {d : Side} {x : Link H} {l : List H} (hr : Rest egp d s x l) :
    x = .list egp d ↔ l = [] := by
  cases l with
  | nil => exact iff_of_true hr.path rfl
  | cons h l => exact iff_of_false (by rw [hr.cons.1]; nofun) nofun

/-- The members that are left stay so when others lose their tag. -/
theorem Rest.of_eq {d : Side} {x : Link H} {l : List H} (hr : Rest egp d s x l)
    (hn : s'.next = s.next) (he : ∀ h ∈ l, s'.egi h = s.egi h) (hg : ∀ h ∈ l, s'.gone h = s.gone h) :
    Rest egp d s' x l :=
  ⟨hn ▸ hr.path, fun h hh => (he h hh).trans (hr.egi h hh),
    fun h hh => (hg h hh).trans (hr.gone h hh)⟩

theorem clearSide_ne_cleanSide (k : Kind) : k.clearSide ≠ k.cleanSide := by cases k <;> nofun

theorem tick_le {m n : ℕ} (h : s.steps egp ≤ n) (hn : n + 1 ≤ m)
    (hs : s'.steps = Function.update s.steps egp (s.steps egp + 1)) : s'.steps egp ≤ m := by
  rw [hs, Function.update_self]
  omega

theorem inv_init (h : Built egp L s) : Inv F egp L s where
  lock a u := by
    rw [h.lock, h.loc]
    exact iff_of_false nofun nofun
  nodup := h.nodup
  zero g _ := h.egState g
  walk := by
    rw [h.loc]
    exact .inl ⟨h.phase, fun d => ⟨h.path d, h.egi d, h.gone d⟩, h.egState egp, h.cleared,
      h.cleaned, Nat.le_of_eq h.steps⟩
  others u _ := by
    rw [h.loc]
    trivial

/-! ### How far the walk has come -/

/-- What the walk has visited, and how many steps it took. -/
structure Visited (egp : Group) (L : Side → List H) (s : St τ H) : Prop where
  running : ∀ k, s.phase egp = .running k →
    s.cleared egp <+: L k.clearSide ∧ s.cleaned egp <+: L k.cleanSide
  inOrder : ∀ k, s.phase egp = .running k → s.cleaned egp ≠ [] → s.cleared egp = L k.clearSide
  finished : ∀ k, s.phase egp = .finished k →
    s.cleared egp = L k.clearSide ∧ s.cleaned egp = L k.cleanSide
  bounded : s.steps egp ≤ 4 + 5 * ((L .incoming).length + (L .outgoing).length)

theorem side_lengths (L : Side → List H) (k : Kind) :
    (L k.clearSide).length + (L k.cleanSide).length =
      (L .incoming).length + (L .outgoing).length := by
  cases k with
  | flip => rfl
  | backout => exact Nat.add_comm _ _

theorem Before.visited {n : ℕ} (h : Before egp L s n) (hn : n ≤ 4) : Visited egp L s where
  running k hk := by
    rw [h.phase] at hk
    cases hk
  inOrder k hk := by
    rw [h.phase] at hk
    cases hk
  finished k hk := by
    rw [h.phase] at hk
    cases hk
  bounded := by
    have := h.steps
    omega

theorem Clearing.visited {k : Kind} {x : Link H} {done rest : List H} {n : ℕ}
    (h : Clearing egp L k s x done rest n) (hn : n ≤ 4) : Visited egp L s where
  running k' hk := by
    obtain rfl := Phase.running.inj (h.phase.symm.trans hk)
    rw [h.cleaned, h.cleared, h.split]
    exact ⟨List.prefix_append _ _, List.nil_prefix⟩
  inOrder k' _ hne := absurd h.cleaned hne
  finished k' hk := by
    rw [h.phase] at hk
    cases hk
  bounded := by
    have h1 := h.steps
    have h2 := congrArg List.length h.split
    have h3 := side_lengths L k
    rw [List.length_append] at h2
    omega

theorem Cleaning.visited {k : Kind} {x : Link H} {done cur rest : List H} {n : ℕ}
    (h : Cleaning egp L k s x done cur rest n) (hn : n ≤ 4 + 5 * (cur ++ rest).length) :
    Visited egp L s where
  running k' hk := by
    obtain rfl := Phase.running.inj (h.phase.symm.trans hk)
    rw [h.cleaned, h.cleared, h.split, List.append_assoc]
    exact ⟨List.prefix_rfl, List.prefix_append _ _⟩
  inOrder k' hk _ := by
    obtain rfl := Phase.running.inj (h.phase.symm.trans hk)
    exact h.cleared
  finished k' hk := by
    rw [h.phase] at hk
    cases hk
  bounded := by
    have h1 := h.steps
    have h2 := congrArg List.length h.split
    have h3 := side_lengths L k
    simp only [List.length_append] at h2 hn
    omega

theorem After.visited {k : Kind} (h : After egp L k s) : Visited egp L s where
  running k' hk := by
    rw [h.phase] at hk
    cases hk
  inOrder k' hk := by
    rw [h.phase] at hk
    cases hk
  finished k' hk := by
    obtain rfl := Phase.finished.inj (h.phase.symm.trans hk)
    exact ⟨h.cleared, h.cleaned⟩
  bounded := by
    have h1 := h.steps
    have h3 := side_lengths L k
    omega

theorem WalkInv.visited {l : Loc H} (hw : WalkInv egp L s l) : Visited egp L s := by
  cases l with
  | idle =>
    rcases hw with hb | ⟨k, ha⟩
    · exact hb.visited (by omega)
    · exact ha.visited
  | bug k g => exact hw.2.visited (by omega)
  | setState g => exact hw.2.visited (by omega)
  | clearNext k g x =>
    obtain ⟨-, -, done, rest, h⟩ := hw
    exact h.visited (by omega)
  | clear k g x =>
    obtain ⟨-, done, a, rest, h⟩ := hw
    exact h.visited (by omega)
  | cleanNext k g x =>
    obtain ⟨-, -, done, rest, h⟩ := hw
    exact h.visited (by omega)
  | cleanLock k g x =>
    obtain ⟨-, done, a, rest, h⟩ := hw
    exact h.visited (by omega)
  | cleanBug k g a | cleanGone k g a =>
    obtain ⟨-, done, rest, h⟩ := hw
    exact h.visited (by simp; omega)
  | cleanUnlock k g a =>
    obtain ⟨-, -, done, rest, h⟩ := hw
    exact h.visited (by simp; omega)
  | _ => exact hw.elim

/-! ### Steps of the other threads -/

theorem at_goto [DecidableEq τ] {P : Loc H → Prop} {l : Loc H} (hl : s'.loc = Function.update s.loc u l)
    (h : P l) : P (s'.loc u) := by
  rw [hl, Function.update_self]
  exact h

variable [DecidableEq H]

/-- What a step of another thread, or of memory that was freed, leaves as it is. -/
structure Others (F : τ) (egp : Group) (s s' : St τ H) : Prop where
  loc : s'.loc F = s.loc F
  egState : s'.egState = s.egState
  gone : ∀ h, h ∉ s.cleaned egp → s'.gone h = s.gone h
  phase : s'.phase = s.phase
  cleared : s'.cleared = s.cleared
  cleaned : s'.cleaned = s.cleaned
  steps : s'.steps = s.steps
  egi : ∀ h, h ∉ s.cleaned egp → ∀ d, s.egi h = tag egp d → s'.egi h = tag egp d
  nextList : ∀ d, s'.next (.list egp d) = s.next (.list egp d)
  nextHead : ∀ h, h ∉ s.cleaned egp → ∀ d, s.egi h = tag egp d →
    s'.next (.head h) = s.next (.head h)
  nextAt : ∀ h, (s.loc F).atNext h = true → s'.next (.head h) = s.next (.head h)

theorem Others.rest {d : Side} {x : Link H} {l : List H} (ho : Others F egp s s')
    (h : Rest egp d s x l) (hc : ∀ a ∈ l, a ∉ s.cleaned egp) : Rest egp d s' x l := by
  refine ⟨h.path.congr fun c hl => ?_, fun a ha => ho.egi a (hc a ha) d (h.egi a ha), fun a ha => ?_⟩
  · obtain ⟨a, ha, rfl⟩ := List.mem_map.mp hl
    exact ho.nextHead a (hc a ha) d (h.egi a ha)
  · rw [ho.gone a (hc a ha)]
    exact h.gone a ha

/-- The link that the walk is about to load. -/
theorem Others.nextHere {d : Side} {x : Link H} (ho : Others F egp s s') (hx : x = .list egp d ∨ ∃ a, x = .head a)
    (hat : ∀ a, x = .head a → (s.loc F).atNext a = true) : s'.next x = s.next x := by
  rcases hx with rfl | ⟨a, rfl⟩
  · exact ho.nextList d
  · exact ho.nextAt a (hat a rfl)

omit [DecidableEq H] in
theorem not_cleaned (h : s.cleaned egp = []) (a : H) : a ∉ s.cleaned egp := h ▸ List.not_mem_nil

omit [DecidableEq H] in
/-- What is before the second loop is not behind it. -/
theorem Cleaning.not_cleaned {k : Kind} {x : Link H} {done cur rest : List H} {n : ℕ}
    (h : Cleaning egp L k s x done cur rest n) (hnd : ∀ d, (L d).Nodup) :
    ∀ a ∈ cur ++ rest, a ∉ s.cleaned egp := by
  intro a ha hc
  have hn : (done ++ (cur ++ rest)).Nodup := by
    rw [← List.append_assoc, ← h.split]
    exact hnd _
  rw [h.cleaned] at hc
  exact List.disjoint_of_nodup_append hn hc ha

theorem Others.clearing {k : Kind} {x : Link H} {done rest : List H} {n : ℕ}
    (ho : Others F egp s s') (h : Clearing egp L k s x done rest n) :
    Clearing egp L k s' x done rest n where
  phase := by rw [ho.phase, h.phase]
  split := h.split
  cleared := by rw [ho.cleared, h.cleared]
  cleaned := by rw [ho.cleaned, h.cleaned]
  rest := ho.rest h.rest fun a _ => not_cleaned h.cleaned a
  other := by
    rw [ho.nextList]
    exact ho.rest h.other fun a _ => not_cleaned h.cleaned a
  steps := by
    rw [ho.steps]
    exact h.steps

theorem Others.cleaning {k : Kind} {x : Link H} {done cur rest : List H} {n : ℕ}
    (ho : Others F egp s s') (hnd : ∀ d, (L d).Nodup) (h : Cleaning egp L k s x done cur rest n) :
    Cleaning egp L k s' x done cur rest n where
  phase := by rw [ho.phase, h.phase]
  split := h.split
  cleared := by rw [ho.cleared, h.cleared]
  cleaned := by rw [ho.cleaned, h.cleaned]
  rest := ho.rest h.rest fun a ha => h.not_cleaned hnd a (List.mem_append_right _ ha)
  steps := by
    rw [ho.steps]
    exact h.steps

theorem Others.before {n : ℕ} (ho : Others F egp s s') (h : Before egp L s n) :
    Before egp L s' n where
  phase := by rw [ho.phase, h.phase]
  list d := by
    rw [ho.nextList]
    exact ho.rest (h.list d) fun a _ => not_cleaned h.cleaned a
  egState := by rw [ho.egState, h.egState]
  cleared := by rw [ho.cleared, h.cleared]
  cleaned := by rw [ho.cleaned, h.cleaned]
  steps := by
    rw [ho.steps]
    exact h.steps

theorem Others.after {k : Kind} (ho : Others F egp s s') (h : After egp L k s) :
    After egp L k s' where
  phase := by rw [ho.phase, h.phase]
  cleared := by rw [ho.cleared, h.cleared]
  cleaned := by rw [ho.cleaned, h.cleaned]
  steps := by
    rw [ho.steps]
    exact h.steps

/-- **What the others do leaves the walk as it is.** -/
theorem Others.walk (ho : Others F egp s s') (hnd : ∀ d, (L d).Nodup)
    (hw : WalkInv egp L s (s.loc F)) : WalkInv egp L s' (s'.loc F) := by
  rw [ho.loc]
  cases hl : s.loc F with
  | idle =>
    rw [hl] at hw
    exact hw.imp ho.before fun ⟨k, h⟩ => ⟨k, ho.after h⟩
  | bug k g =>
    rw [hl] at hw
    exact hw.imp_right ho.before
  | setState g =>
    rw [hl] at hw
    exact hw.imp_right ho.before
  | clearNext k g x =>
    rw [hl] at hw
    obtain ⟨hg, hx, done, rest, h⟩ := hw
    have hnext := ho.nextHere hx fun a ha => by rw [hl, ha]; exact decide_eq_true rfl
    refine ⟨hg, hx, done, rest, ?_⟩
    rw [hnext]
    exact ho.clearing h
  | clear k g x =>
    rw [hl] at hw
    obtain ⟨hg, done, a, rest, h⟩ := hw
    exact ⟨hg, done, a, rest, ho.clearing h⟩
  | cleanNext k g x =>
    rw [hl] at hw
    obtain ⟨hg, hx, done, rest, h⟩ := hw
    have hnext := ho.nextHere hx fun a ha => by rw [hl, ha]; exact decide_eq_true rfl
    refine ⟨hg, hx, done, rest, ?_⟩
    rw [hnext]
    exact ho.cleaning hnd h
  | cleanLock k g x =>
    rw [hl] at hw
    obtain ⟨hg, done, a, rest, h⟩ := hw
    exact ⟨hg, done, a, rest, ho.cleaning hnd h⟩
  | cleanBug k g a =>
    rw [hl] at hw
    obtain ⟨hg, done, rest, h⟩ := hw
    exact ⟨hg, done, rest, ho.cleaning hnd h⟩
  | cleanGone k g a =>
    rw [hl] at hw
    obtain ⟨hg, done, rest, h⟩ := hw
    exact ⟨hg, done, rest, ho.cleaning hnd h⟩
  | cleanUnlock k g a =>
    rw [hl] at hw
    obtain ⟨hg, ha, done, rest, h⟩ := hw
    have hc := h.not_cleaned hnd a List.mem_cons_self
    refine ⟨hg, ho.egi a hc _ ha, done, rest, ?_⟩
    rw [ho.nextHead a hc _ ha]
    exact ho.cleaning hnd h
  | _ =>
    rw [hl] at hw
    exact hw.elim

variable [DecidableEq τ]

/-- **What a step of another thread does**: it leaves the walk alone, it may
put the head whose lock it holds into another group, and it goes to a place
of the same call. -/
theorem other_step (hi : Inv F egp L s) (hu : u ≠ F)
    (hok : ∀ d h g n, s.loc u = .add d h g (.setNext n) → (s.loc F).atNext h = false)
    (hn : stepThread u s = some s') :
    Others F egp s s' ∧ OtherInv egp s' (s'.loc u) ∧ (∀ v, v ≠ u → s'.loc v = s.loc v) ∧
      ∀ h, (s.loc u).holds ≠ some h → s'.egi h = s.egi h := by
  have ho := hi.others u hu
  have hF : ∀ l, Function.update s.loc u l F = s.loc F := fun l =>
    Function.update_of_ne (Ne.symm hu) _ _
  have hv : ∀ l, ∀ v, v ≠ u → Function.update s.loc u l v = s.loc v := fun l v hv =>
    Function.update_of_ne hv _ _
  -- a step that changes no link and no `eh_egi`
  have keep : ∀ s' l, s'.loc = Function.update s.loc u l → s'.egState = s.egState →
      s'.gone = s.gone → s'.phase = s.phase → s'.cleared = s.cleared → s'.cleaned = s.cleaned →
      s'.steps = s.steps → s'.egi = s.egi → s'.next = s.next → OtherInv egp s' l →
      Others F egp s s' ∧ OtherInv egp s' (s'.loc u) ∧ (∀ v, v ≠ u → s'.loc v = s.loc v) ∧
        ∀ h, (s.loc u).holds ≠ some h → s'.egi h = s.egi h := by
    intro s' l hl h1 h2 h3 h4 h5 h6 h7 h8 hl'
    refine ⟨⟨?_, h1, fun h _ => h2 ▸ rfl, h3, h4, h5, h6, fun h _ d hd => h7 ▸ hd, fun d => h8 ▸ rfl,
      fun _ _ _ _ => h8 ▸ rfl, fun _ _ => h8 ▸ rfl⟩, ?_, fun v hvu => ?_, fun h _ => h7 ▸ rfl⟩
    · rw [hl, hF]
    · rwa [hl, Function.update_self]
    · rw [hl, hv _ _ hvu]
  unfold stepThread at hn
  cases hl : s.loc u with
  | idle | ehAdd => simp [hl] at hn
  | lock h g =>
    rw [hl] at ho
    simp only [hl] at hn
    split at hn <;> simp only [Option.some.injEq, reduceCtorEq] at hn
    subst hn
    exact hl ▸ keep _ (.gone h g) rfl rfl rfl rfl rfl rfl rfl rfl rfl ho
  | gone h g =>
    rw [hl] at ho
    simp only [hl, Option.some.injEq] at hn
    subst hn
    refine hl ▸ keep _ _ rfl rfl rfl rfl rfl rfl rfl rfl rfl ?_
    split
    · trivial
    · exact ho
  | egi h g =>
    rw [hl] at ho
    simp only [hl, Option.some.injEq] at hn
    subst hn
    refine hl ▸ keep _ _ rfl rfl rfl rfl rfl rfl rfl rfl rfl ?_
    split
    · trivial
    · rename_i h0
      exact ⟨ho, not_not.mp h0⟩
  | bugTag h g =>
    rw [hl] at ho
    simp only [hl, Option.ite_none_left_eq_some, Option.some.injEq] at hn
    obtain ⟨-, rfl⟩ := hn
    exact hl ▸ keep _ (.setTag h g) rfl rfl rfl rfl rfl rfl rfl rfl rfl ho
  | setTag h g =>
    rw [hl] at ho
    simp only [hl, Option.some.injEq] at hn
    subst hn
    have hne : ∀ h' d, s.egi h' = tag egp d → h' ≠ h := fun h' d hd he =>
      tag_ne_zero egp d (hd ▸ he ▸ ho.2)
    refine ⟨⟨hF _, rfl, fun _ _ => rfl, rfl, rfl, rfl, rfl, fun h' _ d hd => ?_, fun _ => rfl,
      fun _ _ _ _ => rfl, fun _ _ => rfl⟩, ?_, hv _, fun h' hh => ?_⟩
    · exact (Function.update_of_ne (hne h' d hd) _ _).trans hd
    · exact at_goto (P := OtherInv egp _) rfl ⟨rfl, ho.1, Function.update_self ..⟩
    · exact Function.update_of_ne (fun he => hh (by rw [he]; rfl)) _ _
  | unlock h ret =>
    simp only [hl, Option.some.injEq] at hn
    subst hn
    exact hl ▸ keep _ .idle rfl rfl rfl rfl rfl rfl rfl rfl rfl trivial
  | add d h g pc =>
    rw [hl] at ho
    obtain ⟨rfl, hg, htag⟩ := ho
    cases pc with
    | loadFirst | loadNext | setOwnPrev =>
      simp only [hl, Option.some.injEq] at hn
      subst hn
      exact hl ▸ keep _ _ rfl rfl rfl rfl rfl rfl rfl rfl rfl ⟨rfl, hg, htag⟩
    | setPrev n =>
      simp only [hl, Option.some.injEq] at hn
      subst hn
      exact hl ▸ keep _ _ rfl rfl rfl rfl rfl rfl rfl rfl rfl ⟨rfl, hg, htag⟩
    | setNext n =>
      simp only [hl, Option.some.injEq] at hn
      subst hn
      have hat := hok _ _ _ _ hl
      have hne : ∀ h' d, s.egi h' = tag egp d → h' ≠ h := by
        rintro h' d hd rfl
        exact hg (tag_inj (htag.symm.trans hd)).1
      have hlist : ∀ d, Link.list egp d ≠ Link.head h := nofun
      refine ⟨⟨hF _, rfl, fun _ _ => rfl, rfl, rfl, rfl, rfl, fun _ _ _ hd => hd, fun d => ?_,
        fun h' _ d hd => ?_, fun h' hh => ?_⟩, ?_, hv _, fun _ _ => rfl⟩
      · exact Function.update_of_ne (hlist d) n s.next
      · exact Function.update_of_ne (fun he => hne h' d hd (Link.head.inj he)) _ _
      · refine Function.update_of_ne (fun he => ?_) _ _
        rw [Link.head.inj he, hat] at hh
        cases hh
      · exact at_goto (P := OtherInv egp _) rfl ⟨rfl, hg, htag⟩
    | setFirst =>
      simp only [hl, Option.some.injEq] at hn
      subst hn
      have hne : ∀ d, Link.list egp d ≠ (.list g .outgoing : Link H) :=
        fun d he => hg (Link.list.inj he).1.symm
      have hhead : ∀ h', Link.head h' ≠ (.list g .outgoing : Link H) := nofun
      refine ⟨⟨hF _, rfl, fun _ _ => rfl, rfl, rfl, rfl, rfl, fun _ _ _ hd => hd, fun d => ?_,
        fun h' _ _ _ => ?_, fun h' _ => ?_⟩, ?_, hv _, fun _ _ => rfl⟩
      · exact Function.update_of_ne (hne d) _ _
      · exact Function.update_of_ne (hhead h') (.head h) s.next
      · exact Function.update_of_ne (hhead h') (.head h) s.next
      · exact at_goto (P := OtherInv egp _) (l := .unlock h 0) rfl trivial
  | _ =>
    rw [hl] at ho
    exact ho.elim

/-! ### Steps of the walk -/

/-- What a step of the walk changes of the shared state. -/
structure WalkStep (F : τ) (egp : Group) (s s' : St τ H) : Prop where
  next : s'.next = s.next
  prev : s'.prev = s.prev
  egi : ∀ h, s'.egi h ≠ s.egi h → s'.cleared egp = s.cleared egp ++ [h] ∧ s'.egi h = 0 ∧
    ∃ k, s'.phase egp = .running k ∧ s.egi h = tag egp k.clearSide
  egState : ∀ g : Group, g ≠ egp → s'.egState g.1 = s.egState g.1
  loc : ∀ u, u ≠ F → s'.loc u = s.loc u
  cleaned : s.cleaned egp ⊆ s'.cleaned egp
  atNext : ∀ h, (s'.loc F).atNext h = true → h ∉ s.cleaned egp

/-- A step of the walk that stores to no `eh_egi`, and retires no head. -/
theorem WalkStep.of_keep {l : Loc H} (hl : s'.loc = Function.update s.loc F l)
    (hn : s'.next = s.next) (hp : s'.prev = s.prev) (he : s'.egi = s.egi)
    (hs : ∀ g : Group, g ≠ egp → s'.egState g.1 = s.egState g.1) (hc : s'.cleaned = s.cleaned)
    (hat : ∀ h, l.atNext h = false) : WalkStep F egp s s' where
  next := hn
  prev := hp
  egi h hne := absurd (congrFun he h) hne
  egState := hs
  loc u hu := by rw [hl, Function.update_of_ne hu]
  cleaned := by rw [hc]; exact List.Subset.refl _
  atNext h hh := by
    rw [hl, Function.update_self, hat] at hh
    cases hh

/-- **What a step of the walk does.** -/
theorem walk_step (hi : Inv F egp L s) (hn : stepThread F s = some s') :
    WalkInv egp L s' (s'.loc F) ∧ WalkStep F egp s s' := by
  have hw := hi.walk
  unfold stepThread at hn
  cases hl : s.loc F with
  | idle | ehAdd => simp [hl] at hn
  | bug k g =>
    rw [hl] at hw
    obtain ⟨rfl, hb⟩ := hw
    cases k with
    | flip =>
      simp only [hl, Option.ite_none_left_eq_some, Option.some.injEq] at hn
      obtain ⟨-, rfl⟩ := hn
      refine ⟨at_goto (P := WalkInv g L _) (l := .setState g) rfl ⟨rfl, ?_⟩,
        .of_keep rfl rfl rfl rfl (fun _ _ => rfl) rfl fun _ => rfl⟩
      exact ⟨hb.phase, fun d => (hb.list d).of_eq rfl (fun _ _ => rfl) fun _ _ => rfl, hb.egState,
        hb.cleared, hb.cleaned, tick_le hb.steps (by omega) rfl⟩
    | backout =>
      simp only [hl, Option.ite_none_left_eq_some, Option.some.injEq] at hn
      obtain ⟨-, rfl⟩ := hn
      refine ⟨at_goto (P := WalkInv g L _) (l := .clearNext _ g _) rfl
        ⟨rfl, .inl rfl, [], L .outgoing, ?_⟩, .of_keep rfl rfl rfl rfl (fun _ _ => rfl) rfl fun _ => rfl⟩
      exact ⟨Function.update_self .., rfl, hb.cleared, hb.cleaned,
        (hb.list _).of_eq rfl (fun _ _ => rfl) fun _ _ => rfl,
        (hb.list _).of_eq rfl (fun _ _ => rfl) fun _ _ => rfl,
        tick_le hb.steps (by omega) rfl⟩
  | setState g =>
    rw [hl] at hw
    obtain ⟨rfl, hb⟩ := hw
    simp only [hl, Option.some.injEq] at hn
    subst hn
    refine ⟨at_goto (P := WalkInv g L _) (l := .clearNext _ g _) rfl
      ⟨rfl, .inl rfl, [], L .incoming, ?_⟩, .of_keep rfl rfl rfl rfl (fun g' hg' => ?_) rfl fun _ => rfl⟩
    · exact ⟨Function.update_self .., rfl, hb.cleared, hb.cleaned,
        (hb.list _).of_eq rfl (fun _ _ => rfl) fun _ _ => rfl,
        (hb.list _).of_eq rfl (fun _ _ => rfl) fun _ _ => rfl, tick_le hb.steps (by omega) rfl⟩
    · exact Function.update_of_ne (fun he => hg' (Subtype.ext he)) _ _
  | clearNext k g x =>
    rw [hl] at hw
    obtain ⟨rfl, -, done, rest, h⟩ := hw
    simp only [hl, Option.some.injEq] at hn
    subst hn
    refine ⟨at_goto (P := WalkInv g L _) rfl ?_,
      .of_keep rfl rfl rfl rfl (fun _ _ => rfl) rfl fun _ => by split <;> rfl⟩
    split
    · rename_i hx
      obtain rfl := h.rest.end_iff.mp hx
      have hsplit : L k.clearSide = done := by simpa using h.split
      refine ⟨rfl, .inl rfl, [], L k.cleanSide, h.phase, rfl, ?_, h.cleaned,
        h.other.of_eq rfl (fun _ _ => rfl) fun _ _ => rfl, tick_le h.steps ?_ rfl⟩
      · exact h.cleared.trans hsplit.symm
      · rw [hsplit, List.length_nil]
        omega
    · rename_i hx
      cases rest with
      | nil => exact absurd (h.rest.end_iff.mpr rfl) hx
      | cons a rest =>
        exact ⟨rfl, done, a, rest, h.phase, h.split, h.cleared, h.cleaned,
          h.rest.of_eq rfl (fun _ _ => rfl) fun _ _ => rfl,
          h.other.of_eq rfl (fun _ _ => rfl) fun _ _ => rfl, tick_le h.steps (by omega) rfl⟩
  | clear k g x =>
    rw [hl] at hw
    obtain ⟨rfl, done, a, rest, h⟩ := hw
    obtain ⟨rfl, hrest⟩ := h.rest.cons
    simp only [hl, Option.some.injEq] at hn
    subst hn
    have ha := h.rest.egi a List.mem_cons_self
    have hnd : (done ++ a :: rest).Nodup := h.split ▸ hi.nodup _
    have hne : ∀ b ∈ rest, b ≠ a := fun b hb he =>
      (List.nodup_cons.mp (List.nodup_append.mp hnd).2.1).1 (he ▸ hb)
    have hne' : ∀ b ∈ L k.cleanSide, b ≠ a := fun b hb he =>
      clearSide_ne_cleanSide k (tag_inj (ha.symm.trans (he ▸ h.other.egi b hb))).2
    refine ⟨at_goto (P := WalkInv g L _) (l := .clearNext k g (.head a)) rfl
      ⟨rfl, .inr ⟨a, rfl⟩, done ++ [a], rest, h.phase, ?_, ?_, h.cleaned, ?_, ?_, ?_⟩,
      ⟨rfl, rfl, fun b hb => ?_, fun _ _ => rfl, fun u hu => Function.update_of_ne hu _ _,
        List.Subset.refl _, fun b _ => not_cleaned h.cleaned b⟩⟩
    · rw [h.split, List.append_assoc]
      rfl
    · exact (Function.update_self ..).trans (by rw [← h.cleared]; rfl)
    · exact hrest.of_eq rfl (fun b hb => Function.update_of_ne (hne b hb) _ _) fun _ _ => rfl
    · exact h.other.of_eq rfl (fun b hb => Function.update_of_ne (hne' b hb) _ _) fun _ _ => rfl
    · refine tick_le h.steps ?_ rfl
      rw [List.length_append, List.length_singleton]
      omega
    · have hba : b = a := by
        by_contra hba
        exact hb (Function.update_of_ne hba _ _)
      subst hba
      exact ⟨Function.update_self .., Function.update_self .., k, h.phase, ha⟩
  | cleanNext k g x =>
    rw [hl] at hw
    obtain ⟨rfl, -, done, rest, h⟩ := hw
    simp only [hl] at hn
    split at hn
    · rename_i hx
      simp only [Option.some.injEq] at hn
      subst hn
      obtain rfl := h.rest.end_iff.mp hx
      have hsplit : L k.cleanSide = done := by simpa using h.split
      refine ⟨at_goto (P := WalkInv g L _) (l := .idle) rfl (.inr ⟨k, Function.update_self ..,
        h.cleared, h.cleaned.trans hsplit.symm, tick_le h.steps ?_ rfl⟩),
        .of_keep rfl rfl rfl rfl (fun _ _ => rfl) rfl fun _ => rfl⟩
      rw [hsplit]
      omega
    · rename_i hx
      simp only [Option.some.injEq] at hn
      subst hn
      refine ⟨at_goto (P := WalkInv g L _) rfl ?_, .of_keep rfl rfl rfl rfl (fun _ _ => rfl) rfl fun _ => rfl⟩
      cases rest with
      | nil => exact absurd (h.rest.end_iff.mpr rfl) hx
      | cons a rest =>
        exact ⟨rfl, done, a, rest, h.phase, h.split, h.cleared, h.cleaned,
          h.rest.of_eq rfl (fun _ _ => rfl) fun _ _ => rfl, tick_le h.steps (by omega) rfl⟩
  | cleanLock k g x =>
    rw [hl] at hw
    obtain ⟨rfl, done, a, rest, h⟩ := hw
    obtain ⟨rfl, -⟩ := h.rest.cons
    simp only [hl] at hn
    split at hn <;> simp only [Option.some.injEq, reduceCtorEq] at hn
    subst hn
    exact ⟨at_goto (P := WalkInv g L _) (l := .cleanBug k g a) rfl
      ⟨rfl, done, rest, h.phase, h.split, h.cleared, h.cleaned,
        h.rest.of_eq rfl (fun _ _ => rfl) fun _ _ => rfl,
        tick_le h.steps (by omega) rfl⟩, .of_keep rfl rfl rfl rfl (fun _ _ => rfl) rfl fun _ => rfl⟩
  | cleanBug k g a =>
    rw [hl] at hw
    obtain ⟨rfl, done, rest, h⟩ := hw
    simp only [hl, Option.ite_none_left_eq_some, Option.some.injEq] at hn
    obtain ⟨-, rfl⟩ := hn
    exact ⟨at_goto (P := WalkInv g L _) (l := .cleanGone k g a) rfl
      ⟨rfl, done, rest, h.phase, h.split, h.cleared, h.cleaned,
        h.rest.of_eq rfl (fun _ _ => rfl) fun _ _ => rfl,
        tick_le h.steps (by omega) rfl⟩, .of_keep rfl rfl rfl rfl (fun _ _ => rfl) rfl fun _ => rfl⟩
  | cleanGone k g a =>
    rw [hl] at hw
    obtain ⟨rfl, done, rest, h⟩ := hw
    simp only [hl, Option.some.injEq] at hn
    subst hn
    have hnd : (done ++ [] ++ a :: rest).Nodup := h.split ▸ hi.nodup _
    have hne : ∀ b ∈ rest, b ≠ a := fun b hb he =>
      (List.nodup_cons.mp (List.nodup_append.mp hnd).2.1).1 (he ▸ hb)
    refine ⟨at_goto (P := WalkInv g L _) (l := .cleanUnlock k g a) rfl
      ⟨rfl, h.rest.egi a List.mem_cons_self, done, rest, h.phase, ?_, h.cleared, h.cleaned,
        h.rest.cons.2.of_eq rfl (fun _ _ => rfl) fun b hb => Function.update_of_ne (hne b hb) _ _,
        tick_le h.steps (by omega) rfl⟩, .of_keep rfl rfl rfl rfl (fun _ _ => rfl) rfl fun _ => rfl⟩
    rw [h.split]
    simp
  | cleanUnlock k g a =>
    rw [hl] at hw
    obtain ⟨rfl, ha, done, rest, h⟩ := hw
    simp only [hl, Option.some.injEq] at hn
    subst hn
    have hc : Function.update s.cleaned g (s.cleaned g ++ [a]) g = s.cleaned g ++ [a] :=
      Function.update_self ..
    refine ⟨at_goto (P := WalkInv g L _) (l := .cleanNext k g (.head a)) rfl
      ⟨rfl, .inr ⟨a, rfl⟩, done ++ [a], rest, h.phase, ?_, h.cleared, ?_,
        h.rest.of_eq rfl (fun _ _ => rfl) fun _ _ => rfl, tick_le h.steps ?_ rfl⟩,
      ⟨rfl, rfl, fun _ hb => absurd rfl hb, fun _ _ => rfl, fun u hu => Function.update_of_ne hu _ _,
        ?_, fun b hb => ?_⟩⟩
    · rw [h.split, List.append_nil]
    · exact hc.trans (by rw [h.cleaned])
    · rw [List.length_append, List.length_singleton]
      omega
    · exact fun b hb => (congrArg (b ∈ ·) hc).mpr (List.mem_append_left _ hb)
    · have hat : (Loc.cleanNext k g (.head a)).atNext b = true :=
        at_goto (P := fun l => l.atNext b = true → _) rfl id hb
      obtain rfl := of_decide_eq_true hat
      exact h.not_cleaned hi.nodup a List.mem_cons_self
  | _ =>
    rw [hl] at hw
    exact hw.elim

/-- The step that retires `h`. -/
theorem retires {k : Kind} {g : Group} {h : H} (hi : Inv F egp L s)
    (hl : s.loc F = .cleanUnlock k g h) (hn : stepThread F s = some s') : h ∈ s'.cleaned egp := by
  have hw := hi.walk
  rw [hl] at hw
  obtain ⟨rfl, -⟩ := hw
  unfold stepThread at hn
  simp only [hl, Option.some.injEq] at hn
  subst hn
  have hc : Function.update s.cleaned g (s.cleaned g ++ [h]) g = s.cleaned g ++ [h] :=
    Function.update_self ..
  exact (congrArg (h ∈ ·) hc).mpr (List.mem_append_right _ (List.mem_singleton_self h))

end Walk
end Existence
end Perfbook
