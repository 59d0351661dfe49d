/-
# `datastruct/existence/existence.h`: existence groups

An element's `existence_head` says whether the element exists: `eh_egi` is 0
(it does), or the address of an `existence_group`'s `eg_state` with the
lowest bit saying whether the head is incoming or outgoing in the group, and
then the head exists iff that bit equals `eg_state`. `existence_flip` switches
a group's heads at once by storing 1 to `eg_state`, and then walks the two
lists of the group to clear `eh_egi` of the incoming heads and to retire the
outgoing ones; `existence_backout` undoes a group that was being built.

Each load or store of `eg_state`, `eh_egi`, `eh_gone`, of a lock and of a
link of the lists is one step. The initialisers work on memory that no other
thread knows yet, and are one step each; a head or a group is initialised
once (its memory is reused only after a grace period, and is another head or
group then). `eh_add`, `eh_remove` and `eh_free` belong to the structure that
the elements are in: what `eh_add` returns is up to the scheduler, the other
two change nothing here. Accesses are sequentially consistent, so
`existence_exists_relaxed` is `existence_exists`. The `call_rcu` at the end of
`existence_cleanup_gone`, its callback and the memory that it frees come on
top of these steps in `Existence.Walk` (`Walk.Mem`).

The fields of the state from `known` on are history: no step of the code
reads them, but for the guards that a head or group that is initialised was
not before, and that a head that is used was.

Key definitions: `tag`, `existenceExists`, `Loc`, `St`, `stepThread`, `next`.
Key theorem: `exists_tag`.
-/
import Perfbook.Conc.Sys
import Mathlib.Data.List.Basic

namespace Perfbook
namespace Existence

open Conc

/-- `uintptr_t`. -/
abbrev Word := BitVec 64

/-- An `existence_group`, by the address of its `eg_state`: not `NULL`, and
aligned, so that the lowest bit is free for the tag. -/
abbrev Group := {a : Word // a ≠ 0 ∧ a &&& 1 = 0}

theorem aligned_eight : (8 : Word) ≠ 0 ∧ (8 : Word) &&& 1 = 0 := by decide

/-- The list of its group that a head is on. -/
inductive Side
  | incoming
  | outgoing
deriving DecidableEq

/-- `existence_group_incoming` and `existence_group_outgoing`, after the `BUG_ON`. -/
def tag (g : Group) : Side → Word
  | .incoming => g.1 ||| 1
  | .outgoing => g.1

/-- What `existence_exists` returns on the value `egi` of `eh_egi`. -/
def existenceExists (egState : Word → Word) (egi : Word) : Bool :=
  if egi = 0 then true else egi &&& 1 = egState (egi &&& ~~~1)

/-- A `cds_list_head`: the `eh_list` of a head, or a list of a group. -/
inductive Link (H : Type)
  | head (h : H)
  | list (g : Group) (d : Side)
deriving DecidableEq

/-- The two walks over a group. -/
inductive Kind
  | flip
  | backout
deriving DecidableEq

namespace Kind

/-- The list whose heads get `eh_egi = 0`. -/
def clearSide : Kind → Side
  | flip => .incoming
  | backout => .outgoing

/-- The list whose heads go to `existence_cleanup_gone`. -/
def cleanSide : Kind → Side
  | flip => .outgoing
  | backout => .incoming

end Kind

/-- Where a thread is in `cds_list_add(newp, head)`. -/
inductive AddPc (H : Type)
  /-- before loading `head->next` -/
  | loadFirst
  /-- before `head->next->prev = newp` -/
  | setPrev (n : Link H)
  /-- before loading `head->next` again -/
  | loadNext
  /-- before `newp->next = head->next` -/
  | setNext (n : Link H)
  /-- before `newp->prev = head` -/
  | setOwnPrev
  /-- before `head->next = newp` -/
  | setFirst

/-- Where a thread is, with the locals it still needs. -/
inductive Loc (H : Type)
  | idle
  /-- `existence_head_init_incoming`, before `ret = eh_add(ehp)` -/
  | ehAdd (h : H) (g : Group)
  /-- in `cds_list_add` of `h` to a list of `g` -/
  | add (d : Side) (h : H) (g : Group) (pc : AddPc H)
  /-- `existence_head_set_outgoing`, before `spin_lock` -/
  | lock (h : H) (g : Group)
  /-- before `if (ehp->eh_gone)` -/
  | gone (h : H) (g : Group)
  /-- before `if (ehp->eh_egi)` -/
  | egi (h : H) (g : Group)
  /-- before the `BUG_ON` of `existence_group_outgoing` -/
  | bugTag (h : H) (g : Group)
  /-- before the store to `eh_egi` -/
  | setTag (h : H) (g : Group)
  /-- before `spin_unlock` and `return ret` -/
  | unlock (h : H) (ret : Int)
  /-- `existence_flip` or `existence_backout`, before `BUG_ON` -/
  | bug (k : Kind) (g : Group)
  /-- `existence_flip`, before `eg_state = 1` -/
  | setState (g : Group)
  /-- first loop, before loading `next` of `l` -/
  | clearNext (k : Kind) (g : Group) (l : Link H)
  /-- first loop, before `eh_egi = 0` -/
  | clear (k : Kind) (g : Group) (l : Link H)
  /-- second loop, before loading `next` of `l` -/
  | cleanNext (k : Kind) (g : Group) (l : Link H)
  /-- `existence_cleanup_gone`, before `spin_lock` -/
  | cleanLock (k : Kind) (g : Group) (l : Link H)
  /-- before `BUG_ON(ehp->eh_gone)` -/
  | cleanBug (k : Kind) (g : Group) (h : H)
  /-- before `eh_gone = 1` -/
  | cleanGone (k : Kind) (g : Group) (h : H)
  /-- before `spin_unlock` -/
  | cleanUnlock (k : Kind) (g : Group) (h : H)
  /-- `existence_exists`, before loading `eh_egi` -/
  | loadEgi (h : H)
  /-- before loading the state of the group of `egi` -/
  | loadState (h : H) (egi : Word)

/-- How far a group has come. -/
inductive Phase
  | fresh
  | building
  | running (k : Kind)
  | finished (k : Kind)
deriving DecidableEq

structure St (τ H : Type) where
  /-- the words at the addresses of the groups -/
  egState : Word → Word
  egi : H → Word
  gone : H → Bool
  lock : H → Option τ
  next : Link H → Link H
  prev : Link H → Link H
  loc : τ → Loc H
  /-- what the last initialiser or `set_outgoing` of a thread returned -/
  ret : τ → Option Int
  /-- what the last `existence_exists` of a thread returned, if it has -/
  answer : τ → Option Bool
  /-- the heads that were initialised -/
  known : H → Bool
  /-- the group a head was last put in -/
  member : H → Option (Group × Side)
  /-- the head's own `next` is the one of that group -/
  placed : H → Bool
  phase : Group → Phase
  /-- the thread that initialised a group -/
  owner : Group → Option τ
  /-- the heads whose `eh_egi` the walk over a group cleared, in order -/
  cleared : Group → List H
  /-- those it retired -/
  cleaned : Group → List H
  /-- the steps the walk has taken -/
  steps : Group → ℕ
  /-- the head did, or did not, exist at some instant since the first load of
  the last `existence_exists` of a thread -/
  seen : τ → Bool → Bool

/-- What the scheduler can do. -/
inductive Act (τ H : Type)
  | groupInit (t : τ) (g : Group)
  | initPerm (t : τ) (h : H)
  | initIncoming (t : τ) (h : H) (g : Group)
  | ehAdd (t : τ) (ret : Int)
  | setOutgoing (t : τ) (h : H) (g : Group)
  | walk (k : Kind) (t : τ) (g : Group)
  | ask (t : τ) (h : H)
  | step (t : τ)

/-- `ENOENT` and `EAGAIN`. -/
def enoent : Int := 2
def eagain : Int := 11

variable {τ H : Type} [DecidableEq τ] [DecidableEq H]

namespace St

variable (s : St τ H)

/-- Does `h` exist now? -/
def existsNow (s : St τ H) (h : H) : Bool := existenceExists s.egState (s.egi h)

/-- The thread goes to another place. -/
def goto (t : τ) (l : Loc H) : St τ H := { s with loc := Function.update s.loc t l }

/-- The call of `t` is over and returned `r`. -/
def return_ (t : τ) (r : Int) : St τ H :=
  { s with loc := Function.update s.loc t .idle, ret := Function.update s.ret t (some r) }

/-- A step of the walk over `g`. -/
def tick (g : Group) : St τ H := { s with steps := Function.update s.steps g (s.steps g + 1) }

def setNext (l n : Link H) : St τ H := { s with next := Function.update s.next l n }
def setPrev (l n : Link H) : St τ H := { s with prev := Function.update s.prev l n }
def setLock (h : H) (o : Option τ) : St τ H := { s with lock := Function.update s.lock h o }
def setPhase (g : Group) (p : Phase) : St τ H := { s with phase := Function.update s.phase g p }
def setGone (h : H) : St τ H := { s with gone := Function.update s.gone h true }

/-- `CDS_INIT_LIST_HEAD`. -/
def initList (l : Link H) : St τ H := (s.setNext l l).setPrev l l

def existenceGroupInit (t : τ) (g : Group) : St τ H :=
  { (s.initList (.list g .outgoing)).initList (.list g .incoming) with
    egState := Function.update s.egState g.1 0
    phase := Function.update s.phase g .building
    owner := Function.update s.owner g (some t) }

def existenceHeadInit (h : H) (state : Word) : St τ H :=
  { s.initList (.head h) with
    egi := Function.update s.egi h state
    gone := Function.update s.gone h false
    lock := Function.update s.lock h none
    known := Function.update s.known h true }

/-- `h` is put on side `d` of `g`: its `eh_egi` says so from now on. -/
def join (h : H) (g : Group) (d : Side) : St τ H :=
  { s with
    egi := Function.update s.egi h (tag g d)
    member := Function.update s.member h (some (g, d))
    placed := Function.update s.placed h false }

/-- `newp->next` of an addition. -/
def place (h : H) (n : Link H) : St τ H :=
  { s.setNext (.head h) n with placed := Function.update s.placed h true }

/-- `eg_state = 1`. -/
def setState (g : Group) : St τ H :=
  { s with
    egState := Function.update s.egState g.1 1
    phase := Function.update s.phase g (.running .flip) }

/-- The walk over `g` stores 0 to `eh_egi` of `h`. -/
def clear (g : Group) (h : H) : St τ H :=
  { s with
    egi := Function.update s.egi h 0
    cleared := Function.update s.cleared g (s.cleared g ++ [h]) }

/-- The walk over `g` is done with retiring `h`. -/
def clean (g : Group) (h : H) : St τ H :=
  { s.setLock h none with cleaned := Function.update s.cleaned g (s.cleaned g ++ [h]) }

/-- `existence_exists` of `t` loads `eh_egi` of `h`. -/
def startSeen (t : τ) (h : H) : St τ H :=
  { s with seen := Function.update s.seen t fun b => s.existsNow h == b }

/-- `existence_exists` of `t` returns `b`. -/
def reply (t : τ) (b : Bool) : St τ H :=
  { s with loc := Function.update s.loc t .idle, answer := Function.update s.answer t (some b) }

/-- Whoever is between the two loads of `existence_exists` has this instant too. -/
def observe : St τ H :=
  { s with
    seen := fun t b =>
      match s.loc t with
      | .loadState h _ => s.seen t b || s.existsNow h == b
      | _ => s.seen t b }

end St

/-- What follows an addition: `existence_head_init_incoming` returns, and
`existence_head_set_outgoing` unlocks. -/
def added (t : τ) (h : H) (s : St τ H) : Side → St τ H
  | .incoming => s.return_ t 0
  | .outgoing => s.goto t (.unlock h 0)

/-- The next step of thread `t`. -/
def stepThread (t : τ) (s : St τ H) : Option (St τ H) :=
  match s.loc t with
  | .idle => none
  | .ehAdd _ _ => none
  | .add d h g .loadFirst => some (s.goto t (.add d h g (.setPrev (s.next (.list g d)))))
  | .add d h g (.setPrev n) => some ((s.setPrev n (.head h)).goto t (.add d h g .loadNext))
  | .add d h g .loadNext => some (s.goto t (.add d h g (.setNext (s.next (.list g d)))))
  | .add d h g (.setNext n) => some ((s.place h n).goto t (.add d h g .setOwnPrev))
  | .add d h g .setOwnPrev => some ((s.setPrev (.head h) (.list g d)).goto t (.add d h g .setFirst))
  | .add d h g .setFirst => some (added t h (s.setNext (.list g d) (.head h)) d)
  | .lock h g =>
    match s.lock h with
    | none => some ((s.setLock h (some t)).goto t (.gone h g))
    | some _ => none
  | .gone h g => some (s.goto t (if s.gone h then .unlock h (-enoent) else .egi h g))
  | .egi h g => some (s.goto t (if s.egi h ≠ 0 then .unlock h (-eagain) else .bugTag h g))
  | .bugTag h g => if s.egState g.1 ≠ 0 then none else some (s.goto t (.setTag h g))
  | .setTag h g => some ((s.join h g .outgoing).goto t (.add .outgoing h g .loadFirst))
  | .unlock h ret => some ((s.setLock h none).return_ t ret)
  | .bug k g =>
    if s.egState g.1 ≠ 0 then none
    else match k with
      | .flip => some ((s.tick g).goto t (.setState g))
      | .backout => some (((s.tick g).setPhase g (.running k)).goto t
          (.clearNext k g (.list g k.clearSide)))
  | .setState g =>
    some (((s.tick g).setState g).goto t (.clearNext .flip g (.list g Kind.flip.clearSide)))
  | .clearNext k g l =>
    some ((s.tick g).goto t
      (if s.next l = .list g k.clearSide then .cleanNext k g (.list g k.cleanSide)
        else .clear k g (s.next l)))
  | .clear k g (.head h) => some (((s.tick g).clear g h).goto t (.clearNext k g (.head h)))
  | .clear _ _ (.list _ _) => none
  | .cleanNext k g l =>
    if s.next l = .list g k.cleanSide then
      some (((s.tick g).setPhase g (.finished k)).goto t .idle)
    else some ((s.tick g).goto t (.cleanLock k g (s.next l)))
  | .cleanLock k g (.head h) =>
    match s.lock h with
    | none => some (((s.tick g).setLock h (some t)).goto t (.cleanBug k g h))
    | some _ => none
  | .cleanLock _ _ (.list _ _) => none
  | .cleanBug k g h => if s.gone h then none else some ((s.tick g).goto t (.cleanGone k g h))
  | .cleanGone k g h => some (((s.tick g).setGone h).goto t (.cleanUnlock k g h))
  | .cleanUnlock k g h => some (((s.tick g).clean g h).goto t (.cleanNext k g (.head h)))
  | .loadEgi h =>
    if s.egi h = 0 then some ((s.startSeen t h).reply t true)
    else some ((s.startSeen t h).goto t (.loadState h (s.egi h)))
  | .loadState _ v => some (s.reply t (v &&& 1 = s.egState (v &&& ~~~1)))

/-- The next step of what a thread runs, or the start of a call. -/
def act : Act τ H → St τ H → Option (St τ H)
  | .groupInit t g, s =>
    match s.loc t, s.phase g with
    | .idle, .fresh => some (s.existenceGroupInit t g)
    | _, _ => none
  | .initPerm t h, s =>
    match s.loc t, s.known h with
    | .idle, false => some (s.existenceHeadInit h 0)
    | _, _ => none
  | .initIncoming t h g, s =>
    match s.loc t, s.known h with
    | .idle, false =>
      if s.egState g.1 ≠ 0 then none
      else some (((s.existenceHeadInit h (tag g .incoming)).join h g .incoming).goto t (.ehAdd h g))
    | _, _ => none
  | .ehAdd t ret, s =>
    match s.loc t with
    | .ehAdd h g =>
      some (if ret = 0 then s.goto t (.add .incoming h g .loadFirst) else s.return_ t ret)
    | _ => none
  | .setOutgoing t h g, s =>
    match s.loc t, s.known h with
    | .idle, true => some (s.goto t (.lock h g))
    | _, _ => none
  | .walk k t g, s =>
    match s.loc t with
    | .idle => some (s.goto t (.bug k g))
    | _ => none
  | .ask t h, s =>
    match s.loc t, s.known h with
    | .idle, true => some ({ s with answer := Function.update s.answer t none }.goto t (.loadEgi h))
    | _, _ => none
  | .step t, s => stepThread t s

/-- What an action does. -/
def next (a : Act τ H) (s : St τ H) : Option (St τ H) := (act a s).map St.observe

/-! ### Tags -/

theorem tag_ne_zero (g : Group) (d : Side) : tag g d ≠ 0 := by
  obtain ⟨a, ha, _⟩ := g
  cases d with
  | outgoing => exact ha
  | incoming =>
    intro h
    have := congrArg (fun v => v.getLsbD 0) h
    simp [tag] at this

theorem tag_and_one (g : Group) (d : Side) :
    tag g d &&& 1 = match d with | .incoming => 1 | .outgoing => 0 := by
  obtain ⟨a, _, ha⟩ := g
  cases d with
  | outgoing => exact ha
  | incoming => ext i; cases i <;> simp [tag]

/-- Masking the lowest bit gives the group back. -/
theorem tag_and_mask (g : Group) (d : Side) : tag g d &&& ~~~1 = g.1 := by
  obtain ⟨a, _, ha⟩ := g
  have hbit : a[0] = false := by
    simpa using congrArg (fun v => v.getLsbD 0) ha
  have hmask : ∀ i : Fin 63, (~~~(1 : Word))[i.1 + 1] = true := by decide
  have hone : ∀ i : Fin 63, (1 : Word)[i.1 + 1] = false := by decide
  ext i hi
  cases i with
  | zero => cases d <;> simp [tag, hbit]
  | succ i =>
    have h1 := hmask ⟨i, by omega⟩
    have h2 := hone ⟨i, by omega⟩
    cases d <;> simp only [tag, BitVec.getElem_and, BitVec.getElem_or, h1, h2, Bool.or_false,
      Bool.and_true]

theorem tag_inj {g g' : Group} {d d' : Side} (h : tag g d = tag g' d') : g = g' ∧ d = d' := by
  have hg : g = g' := by
    have := congrArg (· &&& ~~~1) h
    simp only [tag_and_mask] at this
    exact Subtype.ext this
  have hd := congrArg (· &&& 1) h
  simp only [tag_and_one] at hd
  refine ⟨hg, ?_⟩
  cases d <;> cases d' <;> first | rfl | simp at hd

/-- A head in a group exists iff the group's state is the one of its side. -/
theorem exists_tag (m : Word → Word) (g : Group) (d : Side) :
    existenceExists m (tag g d) = decide ((match d with | .incoming => 1 | .outgoing => 0) = m g.1) := by
  rw [existenceExists, if_neg (tag_ne_zero g d), tag_and_mask, tag_and_one]

end Existence
end Perfbook
