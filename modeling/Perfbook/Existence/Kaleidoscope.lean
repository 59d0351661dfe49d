/-
# `datastruct/existence/kaleidoscope.h`: groups with many states

A head that belongs to a group has the address of the group's `kg_state` in `kh_kgi`,
with the state in which it exists in the low bits. `kaleidoscope_commit` walks the
lists of the group, one for each state: heads of the current state get `kh_kgi = 0`,
the others are removed.

One thread builds and commits the group; what `kh_add` returns is up to it. It does not
add a head that is in the group. For each head that the commit comes to, the body of the
loop is a step, which ends in `call_rcu` if the head is removed, and the load of
`kh_list.next` is another one. Nobody in the commit is in a read-side critical section, so
the callback of a head may run at any time after its `call_rcu` (`callback`). It calls
`kh_free`, and then there may be anything in the memory of the head (`overwrite`), as there
may be in the memory of the group when the commit is over (`reuse`). Accesses are
sequentially consistent, so `kaleidoscope_exists_relaxed` is `kaleidoscope_exists`.

`kind`, `removes` and `removed` are history: which heads were added to the group, and with
what state, which were made to be in none, whether they came with a `kh_remove`, and how
often it was called.

Key definitions: `forstate`, `kaleidoscopeExists`, `St`, `commitStep`, `callback`, `next`, `sys`, `Selects`, `InTime`.
-/
import Perfbook.Conc.Ring
import Perfbook.Conc.Sys

namespace Perfbook
namespace Kaleidoscope

open Conc

/-- `uintptr_t`. -/
abbrev Word := BitVec 64

/-- `sizeof(void *)`. -/
def KALEID_N_STATES : ℕ := 8

def KALEID_MASK : Word := 7

/-- A `kaleidoscope_group`, by the address of its `kg_state`: not `NULL`, and aligned. -/
abbrev Group := {a : Word // a ≠ 0 ∧ a &&& KALEID_MASK = 0}

/-- `kaleidoscope_group_forstate`, or `none` for a `BUG_ON`. -/
def forstate (kgp state : Word) : Option Word :=
  if kgp = 0 then if state ≠ 0 then none else some 0
  else if state &&& ~~~KALEID_MASK ≠ 0 then none
  else if state &&& kgp ≠ 0 then none
  else some (kgp ||| state)

/-- A `cds_list_head`: the `kh_list` of a head, or `kg_statelist[i]`. -/
inductive Link (H : Type)
  | head (h : H)
  | list (i : ℕ)
deriving DecidableEq

/-- What became of a head. -/
inductive Kind
  | none
  /-- in no group -/
  | outside
  | added (state : Word)
deriving DecidableEq

/-- How far the group is. -/
inductive Phase (H : Type)
  | building
  /-- in `kaleidoscope_commit`, with `i == kgp->kg_state` and the position in the list -/
  | commit (i : ℕ) (keep : Bool) (pos : Link H)
  /-- before `h->kh_list.next`, after the body of the loop -/
  | load (i : ℕ) (keep : Bool) (h : H)
  /-- it has returned, and `kg_state` was `state` -/
  | committed (state : Word)
  /-- and the group may be gone -/
  | later (state : Word)
deriving DecidableEq

variable {H : Type} [DecidableEq H] (kgp : Group)

structure St (H : Type) where
  mem : Word → Word
  links : Links (Link H)
  kgi : H → Word
  gone : H → Bool
  /-- `kh_remove` is not `NULL` -/
  hasRemove : H → Bool
  /-- `kh_free` is not `NULL` -/
  hasFree : H → Bool
  /-- `call_rcu` was called, and the callback has not run yet -/
  queued : H → Bool
  /-- `kh_free` was called -/
  freed : H → Bool
  phase : Phase H
  kind : H → Kind
  removes : H → Bool
  removed : H → ℕ

/-- What may be in the memory of a head. -/
structure Content (H : Type) where
  kgi : Word
  next : Link H
  prev : Link H
  gone : Bool
  hasRemove : Bool
  hasFree : Bool

inductive Act (H : Type)
  | initPerm (h : H) (hasRemove hasFree : Bool)
  /-- `kaleidoscope_head_init_state`, where `kh_add` returns `ret` -/
  | initState (h : H) (kgp state : Word) (hasRemove hasFree : Bool) (ret : Int)
  | setState (state : Word)
  | commit
  | step
  /-- `kaleidoscope_head_rcu_cb` -/
  | callback (h : H)
  | overwrite (h : H) (c : Content H)
  | reuse (mem : Word → Word)

variable (s : St H)

/-- `kaleidoscope_exists`. -/
def kaleidoscopeExists (h : H) : Bool :=
  let kgi := s.kgi h
  if kgi = 0 then true else kgi &&& KALEID_MASK = s.mem (kgi &&& ~~~KALEID_MASK)

/-- `kaleidoscope_head_init`. -/
def headInit (h : H) (state : Word) (hasRemove hasFree : Bool) : St H :=
  { s with
    kgi := Function.update s.kgi h state
    links := ⟨Function.update s.links.next (.head h) (.head h), Function.update s.links.prev (.head h) (.head h)⟩
    hasRemove := Function.update s.hasRemove h hasRemove
    hasFree := Function.update s.hasFree h hasFree
    gone := Function.update s.gone h false
    removes := Function.update s.removes h hasRemove }

/-- After `kh_add`. -/
def headAdd (h : H) (p state : Word) (ret : Int) : St H :=
  if ret = 0 then
    if p ≠ 0 then
      { s with
        links := s.links.add (.head h) (.list state.toNat)
        kind := Function.update s.kind h (.added state) }
    else { s with kind := Function.update s.kind h .outside }
  else { s with kind := Function.update s.kind h .none }

/-- `kaleidoscope_cleanup_gone`. -/
def cleanupGone (h : H) : Option (St H) :=
  if s.gone h then none
  else some { s with
    gone := Function.update s.gone h true
    removed := if s.hasRemove h then Function.update s.removed h (s.removed h + 1) else s.removed
    queued := Function.update s.queued h true }

/-- `kaleidoscope_head_rcu_cb`, once it was handed to `call_rcu`. -/
def callback (h : H) : Option (St H) :=
  if s.queued h then
    some { s with
      queued := Function.update s.queued h false
      freed := if s.hasFree h then Function.update s.freed h true else s.freed }
  else none

/-- The memory of a head that was freed is used for something else. -/
def overwrite (h : H) (c : Content H) : Option (St H) :=
  if s.freed h then
    some { s with
      kgi := Function.update s.kgi h c.kgi
      links := ⟨Function.update s.links.next (.head h) c.next, Function.update s.links.prev (.head h) c.prev⟩
      gone := Function.update s.gone h c.gone
      hasRemove := Function.update s.hasRemove h c.hasRemove
      hasFree := Function.update s.hasFree h c.hasFree }
  else none

/-- The loop of `kaleidoscope_commit` begins with state `i`. -/
def commitList (i : ℕ) : Phase H := .commit i (decide (BitVec.ofNat 64 i = s.mem kgp.1)) (s.links.next (.list i))

/-- The next step of `kaleidoscope_commit`. -/
def commitStep : Option (St H) :=
  match s.phase with
  | .commit i keep (.head h) =>
    let s' := { s with phase := .load i keep h }
    if keep then some { s' with kgi := Function.update s.kgi h 0 } else cleanupGone s' h
  | .load i keep h => some { s with phase := .commit i keep (s.links.next (.head h)) }
  | .commit i _ (.list j) =>
    if j ≠ i then none
    else if i + 1 < KALEID_N_STATES then some { s with phase := commitList kgp s (i + 1) }
    else some { s with phase := .committed (s.mem kgp.1) }
  | _ => none

/-- The head is in the group. -/
def Kind.isAdded : Kind → Bool
  | .added _ => true
  | _ => false

def next : Act H → Option (St H)
  | .initPerm h hasRemove hasFree =>
    if s.phase = .building ∧ (s.kind h).isAdded = false then
      some { headInit s h 0 hasRemove hasFree with kind := Function.update s.kind h .outside }
    else none
  | .initState h p state hasRemove hasFree ret =>
    if s.phase = .building ∧ (s.kind h).isAdded = false ∧ (p = kgp.1 ∨ p = 0) then
      (forstate p state).map fun tag => headAdd (headInit s h tag hasRemove hasFree) h p state ret
    else none
  | .setState state =>
    if s.phase = .building then
      if state &&& ~~~KALEID_MASK ≠ 0 then none else some { s with mem := Function.update s.mem kgp.1 state }
    else none
  | .commit => if s.phase = .building then some { s with phase := commitList kgp s 0 } else none
  | .step => commitStep kgp s
  | .callback h => callback s h
  | .overwrite h c => overwrite s h c
  | .reuse mem =>
    match s.phase with
    | .committed c | .later c => some { s with mem := mem, phase := .later c }
    | _ => none

/-- After `kaleidoscope_group_init`. -/
structure Init (s : St H) : Prop where
  state : s.mem kgp.1 = 0
  links : ∀ i < KALEID_N_STATES, s.links.next (.list i) = .list i ∧ s.links.prev (.list i) = .list i
  phase : s.phase = .building
  queued : ∀ h, s.queued h = false
  freed : ∀ h, s.freed h = false
  kind : ∀ h, s.kind h = .none
  removed : ∀ h, s.removed h = 0

def sys : Sys (St H) (Act H) := ⟨Init kgp, fun a s => next kgp s a⟩

/-- The state that the group has, or had when it was committed. -/
def St.current : Word :=
  match s.phase with
  | .committed c | .later c => c
  | _ => s.mem kgp.1

/-- In the loop of `kaleidoscope_commit`. -/
def Phase.commits : Phase H → Bool
  | .commit _ _ _ | .load _ _ _ => true
  | _ => false

/-- **What is promised.** Until the group is gone, the added heads that exist are those of its current state, but for
heads that were freed, and heads outside always exist. `kh_remove` is called for heads of other states only, once, and
when the commit has returned it was called for all of these; and then the heads of the committed state exist whatever
becomes of the group. There is no `BUG_ON`. -/
structure Selects (s : St H) : Prop where
  selects : ∀ h state, s.kind h = .added state → s.freed h = false → (∀ c, s.phase ≠ .later c) →
    (kaleidoscopeExists s h = true ↔ state = s.mem kgp.1)
  outside : ∀ h, s.kind h = .outside → kaleidoscopeExists s h = true
  removed : ∀ h, 0 < s.removed h → s.removed h = 1 ∧ s.phase ≠ .building ∧
    ∃ state, s.kind h = .added state ∧ state ≠ s.current kgp
  committed : ∀ c, s.phase = .committed c ∨ s.phase = .later c → ∀ h state, s.kind h = .added state →
    (state = c → kaleidoscopeExists s h = true) ∧ s.removed h = if state ≠ c ∧ s.removes h = true then 1 else 0
  runs : s.phase.commits = true → (commitStep kgp s).isSome = true
  calls : s.phase = .building → ∀ state : Word, state.toNat < KALEID_N_STATES →
    (next kgp s (.setState state)).isSome = true ∧ ∀ h hasRemove hasFree ret, (s.kind h).isAdded = false →
      (next kgp s (.initState h kgp.1 state hasRemove hasFree ret)).isSome = true

/-- The callback of a head does not run before the commit has loaded the link of that head. -/
def InTime : Act H → St H → Prop
  | .callback h, s => ∀ i keep, s.phase ≠ .load i keep h
  | _, _ => True

instance : (a : Act H) → (s : St H) → Decidable (InTime a s)
  | .callback h, s =>
    match hp : s.phase with
    | .load i keep e =>
      if he : e = h then .isFalse fun hn => hn i keep (he ▸ hp)
      else .isTrue fun i' keep' hc => by
        cases hp.symm.trans hc
        exact he rfl
    | .building | .commit _ _ _ | .committed _ | .later _ => .isTrue fun _ _ hc => nomatch hp.symm.trans hc
  | .initPerm _ _ _, _ | .initState _ _ _ _ _ _, _ | .setState _, _ | .commit, _ | .step, _ | .overwrite _ _, _
  | .reuse _, _ => .isTrue trivial

end Kaleidoscope
end Perfbook
