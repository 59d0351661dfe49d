/-
# `skiplist.c` with many threads

Each access to a field of a node that other threads use is a step, and so is each
lock and unlock. What is behind the looks at a node that is locked is one step.
A thread inserts, deletes, looks up with `skiplist_lookup_lock`, or changes the
level of a node with `skiplist_balance_node`. The node that `skiplist_lookup_lock`
returns stays locked: its thread unlocks it later, and may make more calls before
it does so. A new node is one that was not used before.

`stage` and `valid` are history: whether a node is in the list or belongs to a
call, and whether the link of a node on a level was stored since then. `none` is
a failing assertion or a `NULL` pointer that is followed, or a thread that waits
for a lock.

Key definitions: `Call`, `Loc`, `St`, `stepThread`, `start`, `release`, `sys`, `Waits`, `Rises`, `Sorts`.
-/
import Perfbook.Conc.Sys
import Perfbook.Skip.Skip

namespace Perfbook
namespace Skip
namespace Par

/-- A call, with the node that is inserted and its random level. -/
inductive Call (ν K : Type)
  | insert (new : ν) (key : K) (toplevel : ℕ)
  | delete (key : K)
  | lookupLock (key : K)
  | balance (key : K) (newlevel : ℕ)

def Call.key {ν K : Type} : Call ν K → K
  | .insert _ key _ | .delete key | .lookupLock key | .balance key _ => key

/-- The locals of a search: `slp_last` and `slp_cur` are those of `skiplist_delete`. -/
structure Vars (ν : Type) where
  update : ℕ → Option ν
  last : Option ν
  cur : Option ν

/-- What a thread does when it has released its locks. -/
inductive After (ν K : Type)
  | retry (c : Call ν K)
  | unlock (slp : ν)
  /-- returns `slp`, which stays locked -/
  | hold (slp : ν)
  | done

/-- Where a thread is, with the locals it still needs. -/
inductive Loc (ν K : Type)
  | idle
  /-- between two calls, with `slp` locked, which `skiplist_lookup_lock` has returned -/
  | has (slp : ν)
  /-- before `slp->sl_next[level]` in the loop of a search -/
  | walk (c : Call ν K) (level : ℕ) (slp : ν) (v : Vars ν)
  /-- before `skiplist_lock` in a search, where `next` was behind `slp` -/
  | lock (c : Call ν K) (level : ℕ) (slp : ν) (next : Option ν) (v : Vars ν)
  /-- before `slp->sl_next[level]` is compared with `next` -/
  | look (c : Call ν K) (level : ℕ) (slp : ν) (next : Option ν) (v : Vars ν)
  /-- before `slp->sl_next[level]` is compared with `slp->sl_next[level + 1]` -/
  | lookUp (c : Call ν K) (level : ℕ) (slp : ν) (next : Option ν) (v : Vars ν)
  /-- in `skiplist_delete`, before `slp_cur->sl_toplevel` of the loop that checks -/
  | checkTop (key : K) (cur : ν) (v : Vars ν)
  /-- before the checks for the levels below `level` -/
  | check (key : K) (cur : ν) (level : ℕ) (v : Vars ν)
  | lockCur (cur : ν) (v : Vars ν)
  /-- before `slp_cur->sl_toplevel` of the loop that unlinks -/
  | unlinkTop (cur : ν) (v : Vars ν)
  /-- before `slp_cur->sl_next` of the level below `level` -/
  | unlinkRead (cur : ν) (level : ℕ) (v : Vars ν)
  /-- before `next` is stored to `slp->sl_next[level]` -/
  | unlinkStore (cur : ν) (level : ℕ) (slp : ν) (next : Option ν) (v : Vars ν)
  | setDeleted (cur : ν) (v : Vars ν)
  /-- before `slp_cur->sl_toplevel`, to which `skiplist_unlock_update` goes -/
  | unlockTop (after : After ν K) (cur : ν) (v : Vars ν)
  /-- in `skiplist_unlock_update`, before `level` -/
  | unlock (after : After ν K) (level toplevel : ℕ) (last : Option ν) (update : ℕ → Option ν)
  /-- before the `skiplist_unlock` of one node -/
  | unlockOne (slp : ν) (after : After ν K)
  /-- in `skiplist_insert_lock`, before the checks for `level` of the second loop -/
  | verify (new : ν) (key : K) (toplevel level : ℕ) (v : Vars ν)
  /-- before `update[0]->sl_next[0]` -/
  | first (new : ν) (key : K) (toplevel : ℕ) (v : Vars ν)
  /-- in `skiplist_insert`, before the fields of the new node are set -/
  | initNew (new : ν) (key : K) (toplevel : ℕ) (v : Vars ν)
  /-- before `update[level]->sl_next[level]` -/
  | linkRead (new : ν) (toplevel level : ℕ) (v : Vars ν)
  /-- before the new node is stored to `slp->sl_next[level]` -/
  | linkStore (new : ν) (toplevel level : ℕ) (slp : ν) (v : Vars ν)
  /-- in `skiplist_balance_node_lock`, before `slp->sl_next[0]` -/
  | balFirst (key : K) (newlevel : ℕ) (v : Vars ν)
  /-- in `skiplist_balance_node`, before `slp->sl_toplevel` -/
  | balTop (x : ν) (newlevel : ℕ) (v : Vars ν)
  /-- before `level > slp->sl_toplevel` of the loop for balancing down -/
  | balDown (x : ν) (newlevel level : ℕ) (v : Vars ν)
  /-- before `update[level]->sl_next[level]` of the loop for balancing up -/
  | balUp (x : ν) (newlevel level : ℕ) (v : Vars ν)
  /-- before `x` is stored to `slp->sl_next[level]` -/
  | balStore (x : ν) (newlevel level : ℕ) (slp : ν) (v : Vars ν)
  | balSet (x : ν) (newlevel : ℕ) (v : Vars ν)
  /-- in `skiplist_lookup_lock_prev`, before `skiplist_lock(slp_prev)` -/
  | prevLock (key : K) (slp : ν)
  | prevDeleted (key : K) (slp : ν)
  /-- before `slp_prev->sl_next[0]` -/
  | prevNext (key : K) (slp : ν)
  | curDeleted (key : K) (slp cur : ν)
  /-- in `skiplist_lookup_lock`, before `skiplist_lock(slp_cur)` -/
  | curLock (slp cur : ν)

/-- What a node is for: nothing yet, a thread is about to insert it, or it was inserted. -/
inductive Stage (n : ℕ)
  | free
  | given (t : Fin n)
  | inList
deriving DecidableEq

structure St (n : ℕ) (ν K : Type) where
  key : ν → K
  toplevel : ν → ℕ
  deleted : ν → Bool
  next : ν → ℕ → Option ν
  lock : ν → Option (Fin n)
  loc : Fin n → Loc ν K
  stage : ν → Stage n
  valid : ν → ℕ → Bool

variable {n : ℕ} {ν K : Type} [DecidableEq ν] [LinearOrder K]

namespace St

variable (s : St n ν K)

/-- The thread goes to another place. -/
def goto (t : Fin n) (l : Loc ν K) : St n ν K := { s with loc := Function.update s.loc t l }

def setNext (slp : ν) (level : ℕ) (q : Option ν) : St n ν K :=
  { s with next := Function.update s.next slp (Function.update (s.next slp) level q) }

def setLock (slp : ν) (o : Option (Fin n)) : St n ν K :=
  { s with lock := Function.update s.lock slp o }

end St

section

variable (head : ν) (s : St n ν K)

/-- The start of a search. -/
def search (c : Call ν K) : Loc ν K := .walk c (s.toplevel head) head ⟨fun _ => none, none, none⟩

def After.loc : After ν K → Loc ν K
  | .retry c => search head s c
  | .unlock slp => .unlockOne slp .done
  | .hold slp => .has slp
  | .done => .idle

/-- After the loop over the levels. -/
def finish (c : Call ν K) (slp : ν) (v : Vars ν) : Loc ν K :=
  match c with
  | .insert new key toplevel => .verify new key toplevel 0 v
  | .delete key =>
    match v.cur with
    | none => .unlock .done 0 (s.toplevel head) none v.update
    | some cur =>
      if s.key cur ≠ key then .unlock .done 0 (s.toplevel head) none v.update else .checkTop key cur v
  | .lookupLock key => .prevLock key slp
  | .balance key newlevel => .balFirst key newlevel v

/-- On to the next level. -/
def advance (c : Call ν K) (level : ℕ) (slp : ν) (v : Vars ν) : Loc ν K :=
  match level with
  | 0 => finish head s c slp v
  | level + 1 => .walk c level slp v

/-- Without a lock, what the search notes for a level, and on to the next one. -/
def note (c : Call ν K) (level : ℕ) (slp : ν) (o : Option ν) (v : Vars ν) : Loc ν K :=
  advance head s c level slp { v with update := Function.update v.update level o }

/-- What follows the `while` loop on a level, when `next` is behind `slp`. -/
def body (c : Call ν K) (level : ℕ) (slp : ν) (next : Option ν) (v : Vars ν) : Loc ν K :=
  match c with
  | .insert _ _ toplevel =>
    if level > toplevel then note head s c level slp none v
    else if level = toplevel ∨ some slp ≠ v.update (level + 1) then .lock c level slp next v
    else note head s c level slp (some slp) v
  | .delete key =>
    if next.any fun cur => s.key cur = key then
      if some slp ≠ v.last then .lock c level slp next { v with cur := next }
      else note head s c level slp (some slp) { v with cur := next }
    else note head s c level slp none { v with cur := next }
  | .lookupLock _ => advance head s c level slp v
  | .balance _ _ =>
    if level = s.toplevel head ∨ some slp ≠ v.update (level + 1) then .lock c level slp next v
    else note head s c level slp (some slp) v

/-- After a lock of the search was taken. -/
def locked (c : Call ν K) (level : ℕ) (slp : ν) (next : Option ν) (v : Vars ν) : Loc ν K :=
  match c with
  | .insert _ _ _ | .delete _ => .look c level slp next v
  | .lookupLock _ | .balance _ _ => advance head s c level slp v

/-- `goto retry` of a search that has found a change. -/
def again (c : Call ν K) (next : Option ν) (v : Vars ν) : Option (Loc ν K) :=
  match c with
  | .insert _ _ toplevel => some (.unlock (.retry c) 0 toplevel none v.update)
  | .delete _ => next.map fun cur => .unlockTop (.retry c) cur v
  | .lookupLock _ | .balance _ _ => none

/-- The level is one that `skiplist_insert_lock` compares with the level above. -/
def Call.Repeats (level : ℕ) : Call ν K → Prop
  | .insert _ _ toplevel => level < toplevel
  | _ => True

instance (level : ℕ) : (c : Call ν K) → Decidable (c.Repeats level)
  | .insert _ _ toplevel => inferInstanceAs (Decidable (level < toplevel))
  | .delete _ | .lookupLock _ | .balance _ _ => .isTrue trivial

/-- The next step of thread `t`. -/
def stepThread (t : Fin n) : Option (St n ν K) :=
  match s.loc t with
  | .idle | .has _ => none
  | .walk c level slp v =>
    match s.next slp level with
    | none => some (s.goto t (body head s c level slp none v))
    | some q =>
      some (s.goto t (if s.key q < c.key then .walk c level q v else body head s c level slp (some q) v))
  | .lock c level slp next v =>
    if s.lock slp ≠ none then none
    else
      some ((s.setLock slp (some t)).goto t (locked head s c level slp next
        { v with update := Function.update v.update level (some slp), last := some slp }))
  | .look c level slp next v =>
    if next ≠ s.next slp level then (again c next v).map (s.goto t)
    else some (s.goto t (.lookUp c level slp next v))
  | .lookUp c level slp next v =>
    if level < s.toplevel slp ∧ c.Repeats level ∧ s.next slp level = s.next slp (level + 1) then
      (again c next v).map (s.goto t)
    else some (s.goto t (advance head s c level slp v))
  | .checkTop key cur v => some (s.goto t (.check key cur (s.toplevel cur + 1) v))
  | .check _ cur 0 v => some (s.goto t (.lockCur cur v))
  | .check key cur (level + 1) v =>
    if (v.update level).any fun slp => s.deleted slp || s.next slp level ≠ some cur then
      some (s.goto t (.unlockTop (.retry (.delete key)) cur v))
    else some (s.goto t (.check key cur level v))
  | .lockCur cur v =>
    if s.lock cur ≠ none then none
    else some ((s.setLock cur (some t)).goto t (.unlinkTop cur v))
  | .unlinkTop cur v => some (s.goto t (.unlinkRead cur (s.toplevel cur + 1) v))
  | .unlinkRead cur 0 v => some (s.goto t (.setDeleted cur v))
  | .unlinkRead cur (level + 1) v =>
    match v.update level with
    | none => some (s.goto t (.unlinkRead cur level v))
    | some slp => some (s.goto t (.unlinkStore cur level slp (s.next cur level) v))
  | .unlinkStore cur level slp next v =>
    some ((s.setNext slp level next).goto t (.unlinkRead cur level v))
  | .setDeleted cur v =>
    some ({ s with deleted := Function.update s.deleted cur true }.goto t (.unlockTop (.unlock cur) cur v))
  | .unlockTop after cur v => some (s.goto t (.unlock after 0 (s.toplevel cur) none v.update))
  | .unlock after level toplevel last update =>
    if level ≤ toplevel then
      match update level with
      | none => some (s.goto t (.unlock after (level + 1) toplevel last update))
      | some slp =>
        if some slp ≠ last then
          some ((s.setLock slp none).goto t (.unlock after (level + 1) toplevel (some slp) update))
        else some (s.goto t (.unlock after (level + 1) toplevel last update))
    else some (s.goto t (after.loc head s))
  | .unlockOne slp after => some ((s.setLock slp none).goto t (after.loc head s))
  | .verify new key toplevel level v =>
    if level ≤ toplevel then do
      let slp ← v.update level
      if s.deleted slp ∨ (s.next slp level).any fun q => s.key q < key then
        some (s.goto t (.unlock (.retry (.insert new key toplevel)) 0 toplevel none v.update))
      else some (s.goto t (.verify new key toplevel (level + 1) v))
    else some (s.goto t (.first new key toplevel v))
  | .first new key toplevel v => do
    let slp ← v.update 0
    if (s.next slp 0).all fun q => key < s.key q then some (s.goto t (.initNew new key toplevel v))
    else some (s.goto t (.unlock .done 0 toplevel none v.update))
  | .initNew new _ toplevel v =>
    some ({ s with
      toplevel := Function.update s.toplevel new toplevel
      deleted := Function.update s.deleted new false
      lock := Function.update s.lock new (some t)
      next := Function.update s.next new fun level =>
        if toplevel < level ∧ level < maxLevels then none else s.next new level
      stage := Function.update s.stage new .inList
      valid := Function.update s.valid new fun level => decide (toplevel < level ∧ level < maxLevels) }.goto t
        (.linkRead new toplevel 0 v))
  | .linkRead new toplevel level v =>
    if level ≤ toplevel then do
      let slp ← v.update level
      some ({ s.setNext new level (s.next slp level) with
        valid := Function.update s.valid new (Function.update (s.valid new) level true) }.goto t
          (.linkStore new toplevel level slp v))
    else some (s.goto t (.unlock (.unlock new) 0 toplevel none v.update))
  | .linkStore new toplevel level slp v =>
    if s.toplevel slp < level then none
    else some ((s.setNext slp level (some new)).goto t (.linkRead new toplevel (level + 1) v))
  | .balFirst key newlevel v => do
    let slp ← v.update 0
    match s.next slp 0 with
    | none => some (s.goto t (.unlock .done 0 (s.toplevel head) none v.update))
    | some x =>
      some (s.goto t (if s.key x = key then .balTop x newlevel v
        else .unlock .done 0 (s.toplevel head) none v.update))
  | .balTop x newlevel v =>
    some (s.goto t
      (if s.toplevel x = newlevel then .unlock .done 0 (s.toplevel head) none v.update
      else if s.toplevel x > newlevel then .balDown x newlevel newlevel v
      else .balUp x newlevel (s.toplevel x + 1) v))
  | .balDown x newlevel level v =>
    if level > s.toplevel x then do
      let slp ← v.update level
      some ((s.setNext slp level (s.next x level)).goto t (.balDown x newlevel (level + 1) v))
    else some (s.goto t (.balSet x newlevel v))
  | .balUp x newlevel level v =>
    if level ≤ newlevel then do
      let slp ← v.update level
      some ((s.setNext x level (s.next slp level)).goto t (.balStore x newlevel level slp v))
    else some (s.goto t (.balSet x newlevel v))
  | .balStore x newlevel level slp v =>
    some ((s.setNext slp level (some x)).goto t (.balUp x newlevel (level + 1) v))
  | .balSet x newlevel v =>
    some ({ s with toplevel := Function.update s.toplevel x newlevel }.goto t
      (.unlock .done 0 (s.toplevel head) none v.update))
  | .prevLock key slp =>
    if s.lock slp ≠ none then none
    else some ((s.setLock slp (some t)).goto t (.prevDeleted key slp))
  | .prevDeleted key slp =>
    some (s.goto t (if s.deleted slp then .unlockOne slp (.retry (.lookupLock key)) else .prevNext key slp))
  | .prevNext key slp =>
    match s.next slp 0 with
    | none => some (s.goto t (.unlockOne slp .done))
    | some cur => some (s.goto t (.curDeleted key slp cur))
  | .curDeleted key slp cur =>
    some (s.goto t
      (if s.deleted cur then .unlockOne slp .done
      else if s.key cur < key then .unlockOne slp (.retry (.lookupLock key))
      else if s.key cur = key then .curLock slp cur
      else .unlockOne slp .done))
  | .curLock slp cur =>
    if s.lock cur ≠ none then none
    else some ((s.setLock cur (some t)).goto t (.unlockOne slp (.hold cur)))

/-- A call starts: the caller gives a new node its key, and the levels are those there are. -/
def start (t : Fin n) (c : Call ν K) : Option (St n ν K) :=
  match s.loc t with
  | .idle | .has _ =>
    match c with
    | .insert new key toplevel =>
      if s.stage new = .free ∧ new ≠ head ∧ toplevel < maxLevels then
        some ({ s with
          key := Function.update s.key new key
          stage := Function.update s.stage new (.given t) }.goto t (search head s c))
      else none
    | .delete _ | .lookupLock _ => some (s.goto t (search head s c))
    | .balance _ newlevel => if newlevel < maxLevels then some (s.goto t (search head s c)) else none
  | _ => none

/-- Between two calls, a thread unlocks a node that it has locked. -/
def release (t : Fin n) (slp : ν) : Option (St n ν K) :=
  if s.lock slp = some t then
    match s.loc t with
    | .idle => some (s.setLock slp none)
    | .has cur => some ((s.setLock slp none).goto t (if slp = cur then .idle else .has cur))
    | _ => none
  else none

end

/-- A thread starts a call, takes its next step, or unlocks a node that was returned to it. -/
inductive Act (n : ℕ) (ν K : Type)
  | call (t : Fin n) (c : Call ν K)
  | step (t : Fin n)
  | release (t : Fin n) (slp : ν)

/-- What `skiplist_init` has prepared. -/
structure Init (head : ν) (s : St n ν K) : Prop where
  toplevel : s.toplevel head = maxLevels - 1
  next : ∀ level < maxLevels, s.next head level = none
  lock : ∀ p, s.lock p = none
  loc : ∀ t, s.loc t = .idle
  stage : ∀ p, s.stage p = .free
  valid : ∀ p level, s.valid p level = true ↔ p = head ∧ level < maxLevels

def sys (n : ℕ) (ν K : Type) [DecidableEq ν] [LinearOrder K] (head : ν) : Conc.Sys (St n ν K) (Act n ν K) :=
  ⟨Init head, fun a s => match a with
    | .call t c => start head s t c
    | .step t => stepThread head s t
    | .release t slp => release s t slp⟩

/-! ### Who waits for whom -/

/-- The lock that a thread is about to take. -/
def Loc.wants : Loc ν K → Option ν
  | .lock _ _ slp _ _ | .prevLock _ slp => some slp
  | .lockCur cur _ | .curLock _ cur => some cur
  | _ => none

/-- The key of `p` is smaller than that of `q`. The head counts as smaller than every key. -/
def Below (head : ν) (s : St n ν K) (p q : ν) : Prop := q ≠ head ∧ (p = head ∨ s.key p < s.key q)

/-- Thread `t` waits for a lock that `u` holds. -/
def Waits (s : St n ν K) (t u : Fin n) : Prop := ∃ x, (s.loc t).wants = some x ∧ s.lock x = some u

/-- The next step of thread `t` copies a link to a larger node only, if it copies one to `x`. -/
def Rises (s : St n ν K) (t : Fin n) : Prop :=
  match s.loc t with
  | .linkRead x toplevel level v => level ≤ toplevel →
    ∀ slp ∈ v.update level, ∀ q ∈ s.next slp level, s.key x < s.key q
  | .balUp x newlevel level v => level ≤ newlevel →
    ∀ slp ∈ v.update level, ∀ q ∈ s.next slp level, s.key x < s.key q
  | _ => True

/-- The next step of thread `t` puts no node in front of one that is not larger: `insert` and
`balance_node` copy a link to a larger key. And `delete` unlocks all that it has locked: it has
noted nothing above the top level of the node that it has found. -/
def Sorts (s : St n ν K) (t : Fin n) : Prop :=
  match s.loc t with
  | .linkRead x toplevel level v => level ≤ toplevel →
    ∀ slp ∈ v.update level, ∀ q ∈ s.next slp level, s.key x < s.key q
  | .balUp x newlevel level v => level ≤ newlevel →
    ∀ slp ∈ v.update level, ∀ q ∈ s.next slp level, s.key x < s.key q
  | .unlockTop _ cur v => ∀ level < maxLevels, s.toplevel cur < level → v.update level = none
  | _ => True

omit [DecidableEq ν] in
theorem Sorts.rises {s : St n ν K} {t : Fin n} (h : Sorts s t) : Rises s t := by
  unfold Sorts at h
  unfold Rises
  split
  · next hloc =>
    rw [hloc] at h
    exact h
  · next hloc =>
    rw [hloc] at h
    exact h
  · trivial

instance (s : St n ν K) (t : Fin n) : Decidable (Sorts s t) := by
  unfold Sorts
  split <;> infer_instance

end Par
end Skip
end Perfbook
