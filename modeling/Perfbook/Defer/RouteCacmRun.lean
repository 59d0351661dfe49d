/-
# Runs of `route_cacm.c`

`route_del` walks the list under `routelock`. `synchronize_rcu` comes to a thread that it
waits for no later than to its index, and goes past it when the section is over; so after it
nobody sees what was removed.

Key definitions: `Inv`.
Key theorems: `InvOf.delStep`, `InvOf.syncStep`, `InvOf.clearStep`, `Inv.next`, `inv_reach`.
-/
import Perfbook.Defer.RouteCacmStep

namespace Perfbook
namespace RouteCacm

open Conc

variable {n : ℕ} {fresh : Bool} {s s' : St n} {q : List Cell} {t u : Fin n} {c p rep : Cell} {k : After}

def Inv (fresh : Bool) (s : St n) : Prop := ∃ q, InvOf fresh s q

/-- The call is `route_del`, and it has not unlinked an entry yet, or it is about to release `routelock`. -/
def deletes : Loc n → Bool
  | .delLock _ | .delTest _ _ | .delLoad _ _ | .delAddr _ _ _ | .delNext _ _ | .delEntryLock _ _ | .delRemoved _ _
  | .delEntryUnlock _ _ | .delRead _ _ | .unlink _ _ _ | .delUnlock _ => true
  | _ => false

/-- The call is in `synchronize_rcu`. -/
def syncs : Loc n → Bool
  | .syncLock _ | .scan _ _ | .wait _ _ | .syncUnlock _ => true
  | _ => false

namespace InvOf

variable (hi : InvOf fresh s q)
include hi

/-- **A step of `route_del`** before the grace period. -/
theorem delStep (hd : deletes (s.loc t) = true) (hn : stepThread fresh t s = some s') : Inv fresh s' := by
  have hloc := hi.loc t
  unfold stepThread at hn
  cases hl : s.loc t with
  | delLock addr =>
    rw [hl] at hn
    dsimp only at hn
    split at hn
    · next hnone =>
      cases hn
      have hlock := hi.lock
      rw [hnone] at hlock
      exact ⟨q, hi.updateLock hl rfl rfl rfl rfl rfl rfl rfl rfl (hlock.take rfl rfl)
        (hi.gp.stay rfl (by rw [hl]; rfl)) rfl (fun _ => rfl) rfl rfl id ⟨[], q, rfl, rfl⟩⟩
    · cases hn
  | delTest addr p =>
    rw [hl] at hn hloc
    cases hn
    refine ⟨q, ?_⟩
    split
    · exact hi.updateGoto hl rfl rfl rfl (fun _ => rfl) rfl rfl id trivial
    · next hne =>
      obtain ⟨rep, hrep⟩ := Option.ne_none_iff_exists'.mp hne
      obtain ⟨l, l', hq, hp⟩ := hloc
      exact hi.updateGoto hl rfl rfl rfl (fun _ => rfl) rfl rfl id ⟨rep, hi.at_of_next hq hp hrep⟩
  | delLoad addr p =>
    rw [hl] at hn hloc
    obtain ⟨rep, hat⟩ := hloc
    dsimp only at hn
    rw [hi.next_of_at hat] at hn
    cases hn
    exact ⟨q, hi.updateGoto hl rfl rfl rfl (fun _ => rfl) rfl rfl id hat⟩
  | delAddr addr p rep =>
    rw [hl] at hn hloc
    cases hn
    refine ⟨q, ?_⟩
    split
    · split
      · next hf => exact hi.updateGoto hl rfl rfl rfl (fun _ => rfl) rfl rfl id ⟨hloc, hf⟩
      · next hf => exact hi.updateGoto hl rfl rfl rfl (fun _ => rfl) rfl rfl id ⟨hloc, fun h => absurd h hf⟩
    · exact hi.updateGoto hl rfl rfl rfl (fun _ => rfl) rfl rfl id ⟨rep, hloc⟩
  | delNext addr p =>
    rw [hl] at hn hloc
    obtain ⟨rep, hat⟩ := hloc
    dsimp only at hn
    rw [hi.next_of_at hat] at hn
    cases hn
    obtain ⟨l, l', hq, -⟩ := hat
    refine ⟨q, hi.updateGoto hl rfl rfl rfl (fun _ => rfl) rfl rfl id ⟨l ++ [rep], l', ?_, ?_⟩⟩
    · rw [List.append_assoc]
      exact hq
    · rw [before_append]
      rfl
  | delEntryLock p rep =>
    rw [hl] at hn hloc
    dsimp only at hn
    split at hn
    · next hnone =>
      cases hn
      exact ⟨q, hi.move rfl rfl rfl rfl rfl rfl (fun _ hu _ => hu) (hi.lock.stay rfl (by rw [hl]; rfl))
        (hi.gp.stay rfl (by rw [hl]; rfl)) (fun hf => hi.takeEntry hnone hf (fun _ => rfl) fun _ => by rw [hl]; rfl)
        (by rw [hl]; rfl) nofun nofun (by rw [hl]; rfl) (by rw [hl]; exact id) hloc⟩
    · cases hn
  | delRemoved p rep =>
    rw [hl] at hn
    cases hn
    exact ⟨q, hi.delRemoved hl⟩
  | delEntryUnlock p rep =>
    rw [hl] at hn hloc
    cases hn
    exact ⟨q, hi.move rfl rfl rfl rfl rfl rfl (fun _ hu _ => hu) (hi.lock.stay rfl (by rw [hl]; rfl))
      (hi.gp.stay rfl (by rw [hl]; rfl)) (fun hf => hi.dropEntry hf (fun _ => rfl) fun _ => by rw [hl]; rfl)
      (by rw [hl]; rfl) nofun nofun (by rw [hl]; rfl) (by rw [hl]; exact id) ⟨hloc.1, fun _ => hloc.2⟩⟩
  | delRead p rep =>
    rw [hl] at hn hloc
    cases hn
    exact ⟨q, hi.updateGoto hl rfl rfl rfl (fun _ => rfl) rfl rfl id ⟨hloc.1, hloc.2, rfl⟩⟩
  | unlink p rep x =>
    rw [hl] at hn
    cases hn
    exact hi.unlink hl
  | delUnlock rep =>
    rw [hl] at hn
    cases rep with
    | none =>
      cases hn
      exact ⟨q, hi.updateLock hl rfl rfl rfl rfl rfl rfl rfl rfl (hi.lock.drop rfl (by rw [hl]; rfl) rfl)
        (hi.gp.stay rfl (by rw [hl]; rfl)) rfl (fun _ => rfl) rfl rfl nofun trivial⟩
    | some rep =>
      cases hn
      exact ⟨q, hi.updateLock hl rfl rfl rfl rfl rfl rfl rfl rfl (hi.lock.drop rfl (by rw [hl]; rfl) rfl)
        (hi.gp.stay rfl (by rw [hl]; rfl)) rfl (fun _ => rfl) rfl rfl nofun trivial⟩
  | _ =>
    rw [hl] at hd
    cases hd

/-- **The wait goes on with thread `i`**: the sections that it waits for are those of `i` and of threads behind it. -/
theorem scanFrom {L₀ : Loc n} {i : ℕ} (hl : s.loc t = L₀)
    (hL₀ : L₀ = .syncLock k ∨ ∃ j, L₀ = .scan k j ∨ L₀ = .wait k j)
    (hloc : s'.loc = Function.update s.loc t (scanFrom k i)) (hnext : s'.next = s.next)
    (hstatus : s'.status = s.status) (hremoved : s'.removed = s.removed) (hfreed : s'.freed = s.freed)
    (hsec : s'.sec = s.sec) (hhere : s'.rcuHere = s.rcuHere) (hel : s'.routeEntryLock = s.routeEntryLock)
    (hrl : s'.routelock = s.routelock) (hgp : holdsGp L₀ = true ∧ s'.rcuGpLock = s.rcuGpLock ∨
      s.rcuGpLock = none ∧ s'.rcuGpLock = some t)
    (hpre : ∀ u, s.sec.pre t u = true → i ≤ u.val) : InvOf fresh s' q := by
  have hgp' : ∀ {L : Loc n}, s'.loc = Function.update s.loc t L → holdsGp L = true →
      LockedBy holdsGp s'.rcuGpLock s'.loc := fun {L} hloc hL => by
    rcases hgp with ⟨h, heq⟩ | ⟨hnone, heq⟩
    · rw [heq]
      exact hi.gp.stay hloc (by rw [hl, hL, h])
    · have h := hi.gp
      rw [hnone] at h
      rw [heq]
      exact h.take hloc hL
  have hroute : holdsRoute L₀ = clears (.syncLock k : Loc n) := by
    rcases hL₀ with rfl | ⟨j, rfl | rfl⟩ <;> cases k <;> rfl
  have hclears : clears L₀ = clears (.syncLock k : Loc n) := by
    rcases hL₀ with rfl | ⟨j, rfl | rfl⟩ <;> cases k <;> rfl
  have hin : inSection L₀ = false := by rcases hL₀ with rfl | ⟨j, rfl | rfl⟩ <;> rfl
  have hpend : pending L₀ = some k := by rcases hL₀ with rfl | ⟨j, rfl | rfl⟩ <;> rfl
  have hentry : ∀ c, holdsEntry c L₀ = false := fun c => by rcases hL₀ with rfl | ⟨j, rfl | rfl⟩ <;> rfl
  revert hloc
  refine scan_rec (P := fun L => s'.loc = Function.update s.loc t L → InvOf fresh s' q)
    (fun v hv hloc => ?_) fun hi' hloc => ?_
  · refine hi.updateLock hl hloc hnext hstatus hremoved hfreed hsec hhere hel ?_ (hgp' hloc rfl) rfl
      (fun c => (hentry c).symm) hin.symm hpend.symm ?_ fun u hu => ?_
    · rw [hrl]
      exact hi.lock.stay hloc (by rw [hl, hroute]; cases k <;> rfl)
    · rw [hclears]
      cases k <;> exact id
    · rw [hv]
      exact hpre u hu
  · refine hi.updateLock hl hloc hnext hstatus hremoved hfreed hsec hhere hel ?_ (hgp' hloc rfl) rfl
      (fun c => (hentry c).symm) hin.symm hpend.symm ?_ (Sections.waited_of_le fun u hu => hi'.trans (hpre u hu))
    · rw [hrl]
      exact hi.lock.stay hloc (by rw [hl, hroute]; cases k <;> rfl)
    · rw [hclears]
      cases k <;> exact id

/-- **A step of `synchronize_rcu`**. -/
theorem syncStep (hd : syncs (s.loc t) = true) (hn : stepThread fresh t s = some s') : InvOf fresh s' q := by
  have hloc := hi.loc t
  unfold stepThread at hn
  cases hl : s.loc t with
  | syncLock k =>
    rw [hl] at hn
    dsimp only at hn
    split at hn
    · next hnone =>
      cases hn
      exact hi.scanFrom hl (.inl rfl) rfl rfl rfl rfl rfl rfl rfl rfl rfl (.inr ⟨hnone, rfl⟩) fun u _ => Nat.zero_le _
    · cases hn
  | scan k i =>
    rw [hl] at hn hloc
    cases hn
    split
    · exact hi.updateGoto hl rfl (by cases k <;> rfl) rfl (fun _ => rfl) rfl rfl (by cases k <;> exact id) hloc
    · next hhere =>
      -- a thread that is not registered looks nothing up
      have hnot : s.sec.pre t i = false := Bool.eq_false_iff.mpr fun h => by
        have hpos := hi.sec t i h
        rw [hi.depth i] at hpos
        split at hpos
        · next hin => exact hhere (hi.here i (of_section hin).2.2.2.2)
        · cases hpos
      exact hi.scanFrom hl (.inr ⟨i, .inl rfl⟩) rfl rfl rfl rfl rfl rfl rfl rfl rfl (.inl ⟨rfl, rfl⟩) fun u hu =>
        Sections.succ_le_of_pre hnot hu (hloc u hu)
  | wait k i =>
    rw [hl] at hn hloc
    dsimp only at hn
    split at hn
    · next hzero =>
      cases hn
      exact hi.scanFrom hl (.inr ⟨i, .inr rfl⟩) rfl rfl rfl rfl rfl rfl rfl rfl rfl (.inl ⟨rfl, rfl⟩) fun u hu =>
        Sections.succ_le_of_pre (hi.sec.not_pre hzero t) hu (hloc u hu)
    · cases hn
  | syncUnlock k =>
    rw [hl] at hn hloc
    cases hn
    cases k with
    | del rep =>
      exact hi.updateLock hl rfl rfl rfl rfl rfl rfl rfl rfl (hi.lock.stay rfl (by rw [hl]; rfl))
        (hi.gp.drop rfl (by rw [hl]; rfl) rfl) rfl (fun _ => rfl) rfl rfl nofun hloc
    | clear o =>
      exact hi.updateLock hl rfl rfl rfl rfl rfl rfl rfl rfl (hi.lock.stay rfl (by rw [hl]; rfl))
        (hi.gp.drop rfl (by rw [hl]; rfl) rfl) rfl (fun _ => rfl) rfl rfl id hloc
  | _ =>
    rw [hl] at hd
    cases hd

/-- `route_del` frees the entry. -/
theorem freeStep (hl : s.loc t = .free rep) : InvOf fresh ((s.reFree rep).answer t 0) q := by
  have hrem := hi.removes t
  have hw := hi.loc t
  rw [hl] at hrem hw
  refine hi.reFree ((hrem rep).mpr rfl) hw (by rw [hl]; rfl) rfl rfl (by rw [hl]; rfl) (by rw [hl]; rfl)
    (fun _ => by rw [hl]; rfl) (by rw [hl]; nofun) (fun s' _ hst c hc => ?_) trivial
  obtain ⟨hc, hne⟩ := (hst c).mp hc
  exact hne ((hrem c).mp hc)

/-- `route_clear` frees an entry. -/
theorem clearFree {o : Option Cell} (hl : s.loc t = .clearFree rep o) :
    InvOf fresh ((s.reFree rep).goto t (.clearLoop o)) q := by
  have hrem := hi.removes t
  have hloc := hi.loc t
  rw [hl] at hrem hloc
  obtain ⟨hw, ho⟩ := hloc
  obtain ⟨_, ⟨l, rfl, hlinked⟩, hnd, hmem⟩ := hrem
  obtain ⟨hnm, hnd⟩ := List.nodup_cons.mp hnd
  refine hi.reFree (r := s.ret) ((hmem rep).mpr List.mem_cons_self) hw (by rw [hl]; rfl) rfl rfl (by rw [hl]; rfl)
    (by rw [hl]; rfl) (fun _ => by rw [hl]; rfl) (fun _ => rfl) (fun s' hnext hst => ⟨l, ?_, hnd, fun c => ?_⟩) hw
  · rw [hnext]
    cases l with
    | nil =>
      rw [show o = none from ho.symm.trans hlinked]
      rfl
    | cons r l =>
      rw [show o = some r from ho.symm.trans hlinked.1]
      exact ⟨l, rfl, hlinked.2⟩
  · rw [hst c, hmem c, List.mem_cons]
    constructor
    · rintro ⟨h | h, hne⟩
      · exact absurd h hne
      · exact h
    · exact fun h => ⟨.inr h, fun he => hnm (he ▸ h)⟩

/-- **A step of `route_clear`** outside the grace period, but for the return. -/
theorem clearStep (hd : s.loc t = .clearLock ∨ s.loc t = .clearLoad ∨ (∃ o, s.loc t = .clearStore o) ∨
    (∃ rep, s.loc t = .clearLoop (some rep)) ∨ ∃ rep o, s.loc t = .clearFree rep o)
    (hn : stepThread fresh t s = some s') :
    Inv fresh s' := by
  have hloc := hi.loc t
  unfold stepThread at hn
  rcases hd with hl | hl | ⟨o, hl⟩ | ⟨rep, hl⟩ | ⟨rep, o, hl⟩ <;> rw [hl] at hn hloc <;> dsimp only at hn
  · split at hn
    · next hnone =>
      cases hn
      have hlock := hi.lock
      rw [hnone] at hlock
      exact ⟨q, hi.updateLock hl rfl rfl rfl rfl rfl rfl rfl rfl (hlock.take rfl rfl)
        (hi.gp.stay rfl (by rw [hl]; rfl)) rfl (fun _ => rfl) rfl rfl id trivial⟩
    · cases hn
  · cases hn
    exact ⟨q, hi.updateGoto hl rfl rfl rfl (fun _ => rfl) rfl rfl id rfl⟩
  · cases hn
    exact ⟨[], hi.clearStore hl⟩
  · cases hn
    exact ⟨q, hi.updateGoto hl rfl rfl rfl (fun _ => rfl) rfl rfl id ⟨hloc, rfl⟩⟩
  · cases hn
    exact ⟨q, hi.clearFree hl⟩

/-- A thread registers or unregisters, or starts a call. -/
theorem idleMove {L : Loc n} (hl : s.loc t = .idle) (hloc : s'.loc = Function.update s.loc t L)
    (hnext : s'.next = s.next) (hstatus : s'.status = s.status) (hremoved : s'.removed = s.removed)
    (hfreed : s'.freed = s.freed) (hsec : s'.sec = s.sec) (hhere : ∀ u, u ≠ t → s'.rcuHere u = s.rcuHere u)
    (hel : s'.routeEntryLock = s.routeEntryLock) (hrl : s'.routelock = s.routelock)
    (hgl : s'.rcuGpLock = s.rcuGpLock)
    (hL : L = .idle ∨ L = .register ∨ (∃ addr, L = .delLock addr) ∨ L = .clearLock ∨
      ∃ addr, L = .readLock addr ∧ s'.rcuHere t = true) : InvOf fresh s' q := by
  have hlock := hi.lock
  have hgp := hi.gp
  have hentry := hi.entry
  rw [← hrl] at hlock
  rw [← hgl] at hgp
  rw [← hel] at hentry
  have hh : ∀ u, s.rcuHere u = true → looksUp (s.loc u) = true → s'.rcuHere u = true := fun u hu hlu => by
    rwa [hhere u fun he => by rw [he, hl] at hlu; cases hlu]
  rcases hL with rfl | rfl | ⟨addr, rfl⟩ | rfl | ⟨addr, rfl, ht⟩
  · exact hi.move hloc hnext hstatus hremoved hfreed hsec hh (hlock.stay hloc (by rw [hl])) (hgp.stay hloc (by rw [hl]))
      (fun hf c hc => (hentry hf c hc).stay hloc (by rw [hl])) (by rw [hl]) nofun nofun (by rw [hl])
      (by rw [hl]; exact id) trivial
  · exact hi.move hloc hnext hstatus hremoved hfreed hsec hh (hlock.stay hloc (by rw [hl]; rfl))
      (hgp.stay hloc (by rw [hl]; rfl)) (fun hf c hc => (hentry hf c hc).stay hloc (by rw [hl]; rfl)) (by rw [hl]; rfl)
      nofun nofun (by rw [hl]; rfl) (by rw [hl]; exact id) trivial
  · exact hi.move hloc hnext hstatus hremoved hfreed hsec hh (hlock.stay hloc (by rw [hl]; rfl))
      (hgp.stay hloc (by rw [hl]; rfl)) (fun hf c hc => (hentry hf c hc).stay hloc (by rw [hl]; rfl)) (by rw [hl]; rfl)
      nofun nofun (by rw [hl]; rfl) (by rw [hl]; exact id) trivial
  · exact hi.move hloc hnext hstatus hremoved hfreed hsec hh (hlock.stay hloc (by rw [hl]; rfl))
      (hgp.stay hloc (by rw [hl]; rfl)) (fun hf c hc => (hentry hf c hc).stay hloc (by rw [hl]; rfl)) (by rw [hl]; rfl)
      nofun nofun (by rw [hl]; rfl) (by rw [hl]; exact id) trivial
  · exact hi.move hloc hnext hstatus hremoved hfreed hsec hh (hlock.stay hloc (by rw [hl]; rfl))
      (hgp.stay hloc (by rw [hl]; rfl)) (fun hf c hc => (hentry hf c hc).stay hloc (by rw [hl]; rfl)) (by rw [hl]; rfl)
      (fun _ => ht) nofun (by rw [hl]; rfl) (by rw [hl]; exact id) trivial

/-- **A step of a thread**, but for the return of `route_clear`. -/
theorem threadStep (hok : s.loc t ≠ .clearLoop none) (hn : stepThread fresh t s = some s') : Inv fresh s' := by
  cases hl : s.loc t with
  | idle | aborted =>
    rw [RouteCacm.stepThread, hl] at hn
    cases hn
  | register =>
    have hrem := hi.removes t
    rw [hl] at hrem
    rw [RouteCacm.stepThread, hl] at hn
    cases hn
    refine ⟨q, hi.move rfl rfl rfl rfl rfl rfl (fun u hu _ => ?_) (hi.lock.stay rfl (by rw [hl]; rfl))
      (hi.gp.stay rfl (by rw [hl]; rfl)) (fun hf c hc => (hi.entry hf c hc).stay rfl (by rw [hl]; rfl))
      (by rw [hl]; rfl) nofun nofun (by rw [hl]; rfl) (by rw [hl]; exact id) trivial⟩
    by_cases hut : u = t
    · rw [hut]
      exact Function.update_self ..
    · exact (Function.update_of_ne hut ..).trans hu
  | readLock addr =>
    rw [RouteCacm.stepThread, hl] at hn
    cases hn
    exact ⟨q, hi.readLock hl⟩
  | load _ _ | readAddr _ _ | readIface _ | readFreed _ _ | entryLock _ _ | readRemoved _ _ | doSomething _ _
  | entryUnlock _ _ | readUnlock _ => exact ⟨q, hi.lookupStep (by rw [hl]; rfl) hn⟩
  | addLock rep => exact ⟨q, hi.addStep hn (.inl ⟨rep, .inl hl⟩)⟩
  | addLoad rep => exact ⟨q, hi.addStep hn (.inl ⟨rep, .inr hl⟩)⟩
  | addStore rep x =>
    rw [RouteCacm.stepThread, hl] at hn
    cases hn
    exact ⟨q, hi.addStore hl⟩
  | addLink rep =>
    rw [RouteCacm.stepThread, hl] at hn
    cases hn
    exact ⟨_, hi.addLink hl⟩
  | addUnlock => exact ⟨q, hi.addStep hn (.inr hl)⟩
  | delLock _ | delTest _ _ | delLoad _ _ | delAddr _ _ _ | delNext _ _ | delEntryLock _ _ | delRemoved _ _
  | delEntryUnlock _ _ | delRead _ _ | unlink _ _ _ | delUnlock _ => exact hi.delStep (by rw [hl]; rfl) hn
  | syncLock _ | scan _ _ | wait _ _ | syncUnlock _ => exact ⟨q, hi.syncStep (by rw [hl]; rfl) hn⟩
  | free rep =>
    rw [RouteCacm.stepThread, hl] at hn
    cases hn
    exact ⟨q, hi.freeStep hl⟩
  | clearLock => exact hi.clearStep (.inl hl) hn
  | clearLoad => exact hi.clearStep (.inr (.inl hl)) hn
  | clearStore o => exact hi.clearStep (.inr (.inr (.inl ⟨o, hl⟩))) hn
  | clearLoop o =>
    cases o with
    | none => exact absurd hl hok
    | some rep => exact hi.clearStep (.inr (.inr (.inr (.inl ⟨rep, hl⟩)))) hn
  | clearFree rep o => exact hi.clearStep (.inr (.inr (.inr (.inr ⟨rep, o, hl⟩)))) hn

end InvOf

/-- **Every step keeps the invariant**, but for the return of `route_clear`. -/
theorem Inv.next {a : Act n} (hi : Inv fresh s) (hok : NotReturned a s) (hn : next fresh a s = some s') :
    Inv fresh s' := by
  obtain ⟨q, hi⟩ := hi
  cases a with
  | register t =>
    rw [RouteCacm.next] at hn
    split at hn
    · next hg =>
      cases hn
      exact ⟨q, hi.idleMove hg.1 rfl rfl rfl rfl rfl rfl (fun _ _ => rfl) rfl rfl rfl (.inr (.inl rfl))⟩
    · cases hn
  | unregister t =>
    rw [RouteCacm.next] at hn
    split at hn
    · next hl =>
      cases hn
      refine ⟨q, hi.idleMove (L := .idle) hl ?_ rfl rfl rfl rfl rfl
        (fun u hu => Function.update_of_ne hu ..) rfl rfl rfl (.inl rfl)⟩
      rw [← hl]
      exact (Function.update_eq_self t s.loc).symm
    · cases hn
  | lookup t addr =>
    rw [RouteCacm.next] at hn
    split at hn
    · next hg =>
      cases hn
      exact ⟨q, hi.idleMove hg.1 rfl rfl rfl rfl rfl rfl (fun _ _ => rfl) rfl rfl rfl
        (.inr (.inr (.inr (.inr ⟨addr, rfl, hg.2⟩))))⟩
    · cases hn
  | add t addr iface a =>
    cases a with
    | none =>
      rw [RouteCacm.next] at hn
      split at hn
      · next hl =>
        cases hn
        exact ⟨q, hi.idleMove hl rfl rfl rfl rfl rfl rfl (fun _ _ => rfl) rfl rfl rfl (.inl rfl)⟩
      · cases hn
    | some a =>
      rw [RouteCacm.next] at hn
      split at hn
      · next hg =>
        cases hn
        exact ⟨q, hi.alloc hg.1 hg.2⟩
      · cases hn
  | del t addr =>
    rw [RouteCacm.next] at hn
    split at hn
    · next hl =>
      cases hn
      exact ⟨q, hi.idleMove hl rfl rfl rfl rfl rfl rfl (fun _ _ => rfl) rfl rfl rfl (.inr (.inr (.inl ⟨addr, rfl⟩)))⟩
    · cases hn
  | clear t =>
    rw [RouteCacm.next] at hn
    split at hn
    · next hl =>
      cases hn
      exact ⟨q, hi.idleMove hl rfl rfl rfl rfl rfl rfl (fun _ _ => rfl) rfl rfl rfl (.inr (.inr (.inr (.inl rfl))))⟩
    · cases hn
  | step t => exact hi.threadStep hok hn

theorem inv_init (h : Init s) : Inv fresh s := by
  have hst : ∀ c x, s.status c = x → x = .unused := fun c x hx => hx.symm.trans (h.status c)
  refine ⟨[], ?_⟩
  refine
    { path := h.routeList
      nodup := List.nodup_nil
      table := fun c => iff_of_false nofun fun hc => nomatch hst c _ hc
      head := h.status .head
      unfreed := fun c hc => absurd (h.status c) hc
      lock := fun t => ?_
      gp := fun t => ?_
      entry := fun _ c hc => absurd (h.status c) hc
      sec := fun t u hp => ?_
      depth := fun t => ?_
      here := fun t ht => ?_
      closed := fun u c d hd => ?_
      reads := fun u c hc => ?_
      gone := fun _ c t hc => nomatch hst c _ hc
      removes := fun t => ?_
      loc := fun t => ?_ }
  · rw [h.routelock, h.loc t]
    exact iff_of_false nofun nofun
  · rw [h.rcuGpLock, h.loc t]
    exact iff_of_false nofun nofun
  · rw [h.pre t u] at hp
    cases hp
  · rw [h.depth t, h.loc t]
    rfl
  · rw [h.loc t] at ht
    cases ht
  · rw [h.depth u] at hd
    cases hd
  · rw [h.loc u] at hc
    cases hc
  · rw [h.loc t]
    exact fun c hc => nomatch hst c _ hc
  · rw [h.loc t]
    trivial

/-- **The table is kept** as long as no `route_clear` has returned. -/
theorem inv_reach (h : (sys fresh n).Reach NotReturned s) : Inv fresh s :=
  h.inv (fun _ => inv_init) fun _ _ _ hi hok hn => hi.next hok hn

end RouteCacm
end Perfbook
