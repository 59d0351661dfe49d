/-
# `together/retrigger-gp.c`: a close that can be opened again

`open`, `close` and the callback `close_cb` run under `rtrg_lock`, so each is
one step. A `close` of an open device hands `close_cb` to `call_rcu`, which
calls it once, when every reader that was inside at that time has left. An
`open` or `close` in between only changes the state, and the callback is to
look at it.

The first test of `close_cb` is written `rtrg_status = RTRG_CLOSING`: it
assigns. So the callback cleans up whatever the state is. The device behaves
as the state machine says in the runs where it is called in a state in which
cleaning up is right (`Timely`), and in no others.

Key definitions: `open'`, `close'`, `closeCb`, `sys`, `Retriggers`, `Timely`.
Key theorems: `inv_step`, `retriggers_iff_timely`.
-/
import Mathlib.Data.Fin.Basic
import Mathlib.Data.Fintype.Basic
import Mathlib.Data.Nat.Notation
import Mathlib.Logic.Function.Basic
import Perfbook.Conc.Sys

namespace Perfbook
namespace Rcu
namespace Retrigger

open Conc

/-- `RTRG_CLOSED` to `RTRG_RECLOSING`. -/
inductive Status
  | closed
  | isOpen
  | closing
  | reopening
  | reclosing
deriving DecidableEq

/-- The values of the macros. -/
def Status.val : Status → ℕ
  | .closed => 0
  | .isOpen => 1
  | .closing => 2
  | .reopening => 3
  | .reclosing => 4

/-- Why a call is refused. -/
inductive Errno
  | ebusy
  | enoent
deriving DecidableEq

inductive Call
  | open'
  | close'
deriving DecidableEq

structure St (n : ℕ) where
  rtrgStatus : Status
  /-- the callbacks handed to `call_rcu`, each with the readers it waits for -/
  pending : List (Fin n → Bool)
  /-- the readers that are inside -/
  inside : Fin n → Bool
  /-- history: the last call that was not refused -/
  last : Option Call
  /-- history: the readers that have been inside since the last such `close` -/
  since : Fin n → Bool
  /-- history: each run of `close_cleanup` with `last` and `since` at that time -/
  cleanups : List (Option Call × (Fin n → Bool))
  /-- history: `WARN_ON_ONCE` was reached -/
  warned : Bool

variable {n : ℕ}

/-- `call_rcu(&rtrg_rh, close_cb)`. -/
def St.callRcu (s : St n) : St n := { s with pending := s.pending ++ [s.inside] }

/-- `close_cleanup`. -/
def St.closeCleanup (s : St n) : St n := { s with cleanups := (s.last, s.since) :: s.cleanups }

/-- `open`. -/
def open' (s : St n) : Except Errno (St n) :=
  if s.rtrgStatus = .closed then .ok { s with rtrgStatus := .isOpen, last := some .open' }
  else if s.rtrgStatus = .closing ∨ s.rtrgStatus = .reclosing then
    .ok { s with rtrgStatus := .reopening, last := some .open' }
  else .error .ebusy

/-- `close`. -/
def close' (s : St n) : Except Errno (St n) :=
  if s.rtrgStatus = .isOpen then
    .ok { { s with rtrgStatus := .closing }.callRcu with last := some .close', since := s.inside }
  else if s.rtrgStatus = .reopening then
    .ok { s with rtrgStatus := .reclosing, last := some .close', since := s.inside }
  else .error .enoent

/-- `close_cb`. The first condition is an assignment, and holds if the value assigned is not 0. -/
def closeCb (s : St n) : St n :=
  let s := { s with rtrgStatus := Status.closing }
  if s.rtrgStatus.val ≠ 0 then { s.closeCleanup with rtrgStatus := .closed }
  else if s.rtrgStatus = .reopening then { s with rtrgStatus := .isOpen }
  else if s.rtrgStatus = .reclosing then { s with rtrgStatus := .closing }.callRcu
  else { s with warned := true }

inductive Act (n : ℕ)
  | open'
  | close'
  /-- `call_rcu` calls the `k`-th callback -/
  | closeCb (k : ℕ)
  | enter (i : Fin n)
  | leave (i : Fin n)

/-- A refused call changes nothing. -/
def done (s : St n) : Except Errno (St n) → St n
  | .ok s' => s'
  | .error _ => s

/-- What an action does. A callback is called after all its readers have left. -/
def next : Act n → St n → Option (St n)
  | .open', s => some (done s (open' s))
  | .close', s => some (done s (close' s))
  | .closeCb k, s =>
    match s.pending[k]? with
    | some w =>
      if ∀ i, w i = false then some (closeCb { s with pending := s.pending.eraseIdx k }) else none
    | none => none
  | .enter i, s =>
    if s.inside i = false then some { s with inside := Function.update s.inside i true } else none
  | .leave i, s =>
    if s.inside i = true then
      some { s with
        inside := Function.update s.inside i false
        pending := s.pending.map fun w => Function.update w i false
        since := Function.update s.since i false }
    else none

/-- The device is closed, and was never opened. -/
structure Init (s : St n) : Prop where
  status : s.rtrgStatus = .closed
  pending : s.pending = []
  last : s.last = none
  since : ∀ i, s.since i = false
  cleanups : s.cleanups = []
  warned : s.warned = false

def sys (n : ℕ) : Sys (St n) (Act n) := ⟨Init, next⟩

/-- A state in which a callback is pending. -/
def Status.waits : Status → Bool
  | .closing | .reopening | .reclosing => true
  | .closed | .isOpen => false

/-- Cleaning up is right after a `close`, when the readers of that time have left. -/
def Clean (c : Option Call × (Fin n → Bool)) : Prop := c.1 = some .close' ∧ ∀ i, c.2 i = false

/-- What the state machine promises. -/
structure Retriggers (s : St n) : Prop where
  isOpen : (s.rtrgStatus = .isOpen ∨ s.rtrgStatus = .reopening) ↔ s.last = some .open'
  pending : s.pending.length = if s.rtrgStatus.waits then 1 else 0
  cleanups : ∀ c ∈ s.cleanups, Clean c
  warned : s.warned = false

/-- The callback is called in a state in which cleaning up is right: closing, or
closing again when the readers of the second `close` have left as well. -/
def Timely : Act n → St n → Prop
  | .closeCb _, s =>
    s.rtrgStatus = .closing ∨ s.rtrgStatus = .reclosing ∧ ∀ i, s.since i = false
  | _, _ => True

instance (a : Act n) (s : St n) : Decidable (Timely a s) := by
  cases a <;> unfold Timely <;> infer_instance

/-! ### The invariant -/

structure Inv (s : St n) : Prop extends Retriggers s where
  /-- a `close` came last -/
  close : s.rtrgStatus = .closing ∨ s.rtrgStatus = .reclosing → s.last = some .close'
  /-- the callback waits for the readers of that `close` -/
  covers : s.rtrgStatus = .closing → ∀ w ∈ s.pending, ∀ i, s.since i = true → w i = true

variable {s s' : St n}

theorem closeCb_eq (s : St n) :
    closeCb s = { s.closeCleanup with rtrgStatus := .closed } := rfl

/-- The callback that is called is the only one. -/
theorem Inv.called (h : Inv s) {k : ℕ} {w : Fin n → Bool} (hk : s.pending[k]? = some w) :
    s.rtrgStatus.waits = true ∧ s.pending.eraseIdx k = [] := by
  have hlen := h.pending
  obtain ⟨hlt, -⟩ := List.getElem?_eq_some_iff.mp hk
  split at hlen <;> rename_i hst
  · obtain ⟨v, hv⟩ := List.length_eq_one_iff.mp hlen
    rw [hlen, Nat.lt_one_iff] at hlt
    exact ⟨hst, by rw [hlt, hv]; rfl⟩
  · omega

/-- In a timely call the readers of the last `close` have left. -/
theorem Inv.clean (h : Inv s) {k : ℕ} {w : Fin n → Bool} (hk : s.pending[k]? = some w)
    (hw : ∀ i, w i = false) (hok : Timely (.closeCb k) s) : Clean (s.last, s.since) := by
  obtain hst | ⟨hst, hsince⟩ := hok
  · refine ⟨h.close (.inl hst), fun i => ?_⟩
    by_contra hi
    have := h.covers hst w (List.mem_of_getElem? hk) i (by simpa using hi)
    rw [hw i] at this
    cases this
  · exact ⟨h.close (.inr hst), hsince⟩

theorem inv_open (h : Inv s) : Inv (done s (open' s)) := by
  unfold open'
  split
  · rename_i hst
    have hlen := h.pending
    rw [hst] at hlen
    exact ⟨⟨by simp [done], hlen, h.cleanups, h.warned⟩, by simp [done], by simp [done]⟩
  split
  · rename_i hst
    have hlen := h.pending
    have hwaits : s.rtrgStatus.waits = true := by obtain hst | hst := hst <;> rw [hst] <;> rfl
    rw [hwaits] at hlen
    exact ⟨⟨by simp [done], hlen, h.cleanups, h.warned⟩, by simp [done], by simp [done]⟩
  · exact h

theorem inv_close (h : Inv s) : Inv (done s (close' s)) := by
  unfold close'
  split
  · rename_i hst
    have hlen := h.pending
    rw [hst] at hlen
    have hnil : s.pending = [] := List.length_eq_zero_iff.mp hlen
    refine ⟨⟨by simp [done, St.callRcu], ?_, h.cleanups, h.warned⟩, by simp [done], ?_⟩
    · simp [done, St.callRcu, hnil, Status.waits]
    · intro _ w hw i hi
      -- `call_rcu` waits for all readers that are inside
      obtain rfl : w = s.inside := by simpa [done, St.callRcu, hnil] using hw
      exact hi
  split
  · rename_i hst
    have hlen := h.pending
    rw [hst] at hlen
    exact ⟨⟨by simp [done], hlen, h.cleanups, h.warned⟩, by simp [done], by simp [done]⟩
  · exact h

/-- **The step lemma.** -/
theorem inv_step {a : Act n} (h : Inv s) (hok : Timely a s) (hn : next a s = some s') : Inv s' := by
  cases a with
  | open' =>
    cases hn
    exact inv_open h
  | close' =>
    cases hn
    exact inv_close h
  | closeCb k =>
    simp only [next] at hn
    split at hn
    · rename_i w hk
      split at hn <;> rename_i hw <;> cases hn
      have herase := (h.called hk).2
      have hclean := h.clean hk hw hok
      have hlast : s.last = some .close' := hclean.1
      rw [closeCb_eq]
      refine ⟨⟨?_, by simp [St.closeCleanup, herase, Status.waits], ?_, h.warned⟩,
        by simp, by simp⟩
      · simp [St.closeCleanup, hlast]
      · intro c hc
        obtain rfl | hc := List.mem_cons.mp hc
        · exact hclean
        · exact h.cleanups c hc
    · cases hn
  | enter i =>
    simp only [next] at hn
    split at hn <;> cases hn
    exact ⟨⟨h.isOpen, h.pending, h.cleanups, h.warned⟩, h.close, h.covers⟩
  | leave i =>
    simp only [next] at hn
    split at hn <;> cases hn
    refine ⟨⟨h.isOpen, by simpa using h.pending, h.cleanups, h.warned⟩, h.close, ?_⟩
    intro hst w hw j hj
    obtain ⟨v, hv, rfl⟩ := List.mem_map.mp hw
    dsimp only at hj ⊢
    by_cases hij : j = i
    · rw [hij, Function.update_self] at hj
      cases hj
    · rw [Function.update_of_ne hij] at hj ⊢
      exact h.covers hst v hv j hj

theorem inv_init (h : Init s) : Inv s where
  isOpen := by simp [h.status, h.last]
  pending := by simp [h.status, h.pending, Status.waits]
  cleanups c hc := by simp [h.cleanups] at hc
  warned := h.warned
  close hst := by simp [h.status] at hst
  covers hst := by simp [h.status] at hst

theorem inv_of_timely (h : (sys n).Reach Timely s) : Inv s :=
  h.inv (fun _ => inv_init) fun _ _ _ hi hok hn => inv_step hi hok hn

/-! ### The callback at any other time -/

/-- A run of `close_cleanup` is on record for good. -/
theorem cleanups_subset {a : Act n} (hn : next a s = some s') : s.cleanups ⊆ s'.cleanups := by
  cases a with
  | open' =>
    cases hn
    unfold open'
    split
    · exact List.Subset.refl _
    split <;> exact List.Subset.refl _
  | close' =>
    cases hn
    unfold close'
    split
    · exact List.Subset.refl _
    split <;> exact List.Subset.refl _
  | closeCb k =>
    simp only [next] at hn
    split at hn
    · split at hn <;> cases hn
      rw [closeCb_eq]
      exact List.subset_cons_self ..
    · cases hn
  | enter i | leave i =>
    simp only [next] at hn
    split at hn <;> cases hn
    exact List.Subset.refl _

/-- A call that cleans up at the right time is timely. -/
theorem Inv.timely (h : Inv s) {a : Act n} (hn : next a s = some s')
    (hc : ∀ c ∈ s'.cleanups, Clean c) : Timely a s := by
  cases a with
  | closeCb k =>
    simp only [next] at hn
    split at hn
    · rename_i w hk
      split at hn <;> cases hn
      obtain ⟨hlast, hsince⟩ := hc (s.last, s.since) List.mem_cons_self
      have hopen := mt h.isOpen.mp (by rw [show s.last = _ from hlast]; exact nofun)
      have hwaits := (h.called hk).1
      cases hst : s.rtrgStatus with
      | closed | isOpen => rw [hst] at hwaits; cases hwaits
      | closing => exact .inl hst
      | reopening => exact absurd (.inr hst) hopen
      | reclosing => exact .inr ⟨hst, hsince⟩
    · cases hn
  | open' | close' | enter i | leave i => trivial

/-- **The runs that keep the promise.** -/
theorem retriggers_iff_timely (h : (sys n).Reach Sys.always s) :
    (∀ c ∈ s.cleanups, Clean c) ↔ (sys n).Reach Timely s := by
  refine ⟨fun hc => ?_, fun ht => (inv_of_timely ht).cleanups⟩
  induction h with
  | init h0 => exact .init h0
  | step a _ _ hn ih =>
    have ht := ih fun c hm => hc c (cleanups_subset hn hm)
    exact .step a ht ((inv_of_timely ht).timely hn hc) hn

/-- The promise is kept in the runs whose callbacks are timely, and in no others. -/
theorem retrigger_close (n : ℕ) :
    (∀ s, (sys n).Reach Timely s → Retriggers s) ∧
      ∀ s, (sys n).Reach Sys.always s → Retriggers s → (sys n).Reach Timely s :=
  ⟨fun _ h => (inv_of_timely h).toRetriggers, fun _ h hr => (retriggers_iff_timely h).mp hr.cleanups⟩

/-- Closed, and nobody inside. -/
def start (n : ℕ) : St n := ⟨.closed, [], fun _ => false, none, fun _ => false, [], false⟩

theorem start_init (n : ℕ) : Init (start n) := ⟨rfl, rfl, rfl, fun _ => rfl, rfl, rfl⟩

/-- A reader holds up the callback of a `close`. -/
def closes : List (Act 1) := [.open', .enter 0, .close', .leave 0, .closeCb 0]

theorem retrigger_close_once : ∃ s, (sys 1).run Timely closes (start 1) = some s ∧ Retriggers s := by
  obtain ⟨s, hs⟩ := Option.isSome_iff_exists.mp
    (show ((sys 1).run Timely closes (start 1)).isSome = true by decide)
  exact ⟨s, hs, (retrigger_close 1).1 s (Sys.run_reach (.init (start_init 1)) hs)⟩

/-- Opened again before the callback is called. -/
def reopens : List (Act 1) := [.open', .close', .open', .closeCb 0]

/-- The callback closes the open device. -/
theorem reopened_device_closed : ¬ ∀ s, (sys 1).Reach Sys.always s → Retriggers s := by
  intro h
  obtain ⟨s, hs⟩ := Option.isSome_iff_exists.mp
    (show ((sys 1).run Sys.always reopens (start 1)).isSome = true by decide)
  have hst : ((sys 1).run Sys.always reopens (start 1)).map (fun s => (s.rtrgStatus, s.last)) =
    some (.closed, some .open') := by decide
  rw [hs, Option.map_some, Option.some.injEq, Prod.mk.injEq] at hst
  have hopen := (h s (Sys.run_reach (.init (start_init 1)) hs)).isOpen.mpr hst.2
  simp [hst.1] at hopen

end Retrigger
end Rcu
end Perfbook
