/-
# A flip stays inside its group

A member whose `eh_egi` the walk of `existence_flip` or `existence_backout`
has cleared may be claimed for another group at once. The claim stores to the
`next` of its `eh_list`, which the walk loads only after it cleared `eh_egi`:
if the store comes first, the walk goes on in the list of the other group
(`walks_into_other_group`). In the same way, the callback of a retired head
may free it before the walk loads its `next` (`retires_from_other_group`).
When neither happens (`RelinkOk`), the walk visits exactly the two lists it
found and changes nothing that belongs to another group (`walk_inside`).

Key definitions: `Inside`, `MemInv`.
Key theorems: `reach_inv`, `goes_on`, `walk_inside`, `walks_into_other_group`,
`retires_from_other_group`.
-/
import Perfbook.Existence.Walk
import Mathlib.Data.Fintype.Basic

namespace Perfbook
namespace Existence

open Conc

namespace Walk

variable {τ H : Type} [DecidableEq τ] [DecidableEq H] {F u t : τ} {egp : Group} {L : Side → List H}
  {s s' : St τ H} {m m' : Mem τ H}

/-- What the walk does is inside its group. -/
structure Inside (F : τ) (egp : Group) (L : Side → List H) (s : St τ H) : Prop where
  /-- what the walk visited so far are the lists, from their start, in order -/
  running : ∀ k, s.phase egp = .running k →
    s.cleared egp <+: L k.clearSide ∧ s.cleaned egp <+: L k.cleanSide
  /-- the second loop starts when the first is through -/
  inOrder : ∀ k, s.phase egp = .running k → s.cleaned egp ≠ [] → s.cleared egp = L k.clearSide
  /-- at the end it visited both lists, all of them -/
  finished : ∀ k, s.phase egp = .finished k →
    s.cleared egp = L k.clearSide ∧ s.cleaned egp = L k.cleanSide
  once : ∀ d, (L d).Nodup
  /-- a step of the walk changes no link, and `eh_egi` only of the head it
  visits, which belongs to the group then -/
  keeps : ∀ s', next (.step F) s = some s' → s'.next = s.next ∧ s'.prev = s.prev ∧
    ∀ h, s'.egi h ≠ s.egi h → s'.cleared egp = s.cleared egp ++ [h] ∧ s'.egi h = 0 ∧
      ∃ k, s'.phase egp = .running k ∧ s.egi h = tag egp k.clearSide
  /-- the walk takes boundedly many steps -/
  bounded : s.steps egp ≤ 4 + 5 * ((L .incoming).length + (L .outgoing).length)
  /-- and can always take the next, unless another thread holds the lock it
  needs, and that thread can go on -/
  goesOn : s.loc F ≠ .idle → (next (.step F) s).isSome ∨
    ∃ k h u, s.loc F = .cleanLock k egp (.head h) ∧ s.lock h = some u ∧ u ≠ F ∧
      (next (.step u) s).isSome

/-! ### Runs -/

/-- The invariant, and that only retired heads that the walk has left are freed. -/
structure MemInv (F : τ) (egp : Group) (L : Side → List H) (m : Mem τ H) : Prop where
  inv : Inv F egp L m.st
  queued : ∀ h, m.queued h = true → h ∈ m.st.cleaned egp
  freed : ∀ h, m.freed h = true → h ∈ m.st.cleaned egp ∧ (m.st.loc F).atNext h = false

omit [DecidableEq τ] in
/-- What another thread relies on is the `eh_egi` of the head that it puts into
another group, which is not in this one. -/
theorem OtherInv.congr {l : Loc H} (ho : OtherInv egp s l)
    (hk : ∀ h, l.holds = some h → l.calls h = true → (∀ d, s.egi h ≠ tag egp d) → s'.egi h = s.egi h) :
    OtherInv egp s' l := by
  cases l with
  | bugTag h g | setTag h g =>
    have hne : ∀ d, s.egi h ≠ tag egp d := fun d hd => tag_ne_zero egp d (hd.symm.trans ho.2)
    exact ⟨ho.1, (hk h rfl (decide_eq_true rfl) hne).trans ho.2⟩
  | add d h g pc =>
    obtain ⟨rfl, hg, he⟩ := ho
    have hne : ∀ d, s.egi h ≠ tag egp d := fun d hd => hg (tag_inj (he.symm.trans hd)).1
    exact ⟨rfl, hg, (hk h rfl (decide_eq_true rfl) hne).trans he⟩
  | _ => exact ho

theorem inv_stepThread (hi : Inv F egp L s)
    (hok : ∀ d h g n, s.loc t = .add d h g (.setNext n) → (s.loc F).atNext h = false)
    (hn : stepThread t s = some s') : Inv F egp L s' := by
  by_cases ht : t = F
  · subst ht
    obtain ⟨hw, hs⟩ := walk_step hi hn
    refine ⟨lock_stepThread hi.lock hn, hi.nodup, fun g hg => ?_, hw, fun u hu => ?_⟩
    · rw [hs.egState g hg, hi.zero g hg]
    · have ho := hi.others u hu
      -- the walk clears only heads that carry the group's tag
      have hkeep : ∀ h, (∀ d, s.egi h ≠ tag egp d) → s'.egi h = s.egi h := fun h hd => by
        by_contra hne
        obtain ⟨-, -, k, -, he⟩ := hs.egi h hne
        exact hd _ he
      rw [hs.loc u hu]
      exact ho.congr fun h _ _ => hkeep h
  · obtain ⟨hw, hu, hloc, hegi⟩ := other_step hi ht hok hn
    refine ⟨lock_stepThread hi.lock hn, hi.nodup, fun g hg => ?_, hw.walk hi.nodup hi.walk,
      fun v hv => ?_⟩
    · rw [hw.egState, hi.zero g hg]
    · by_cases hvt : v = t
      · exact hvt ▸ hu
      · have ho := hi.others v hv
        -- a head that `v` works on is locked by `v`
        have hkeep : ∀ h, (s.loc v).holds = some h → s'.egi h = s.egi h := fun h hh =>
          hegi h fun ht' => hvt (hi.lock.unique hh ht')
        rw [hloc v hvt]
        exact ho.congr fun h hh _ _ => hkeep h hh

omit [DecidableEq τ] in
/-- What `RelinkOk` says of a store to the `next` of a head. -/
theorem RelinkOk.setNext (hok : RelinkOk F egp (.act (.step t)) m) (d : Side) (h : H) (g : Group)
    (n : Link H) (hl : m.st.loc t = .add d h g (.setNext n)) : (m.st.loc F).atNext h = false := by
  have := hok.2
  simp only [hl] at this
  exact this

theorem inv_act {a : Act τ H} (hi : Inv F egp L m.st) (hok : RelinkOk F egp (.act a) m)
    (hn : act a m.st = some s') : Inv F egp L s' := by
  obtain ⟨s, queued, freed⟩ := m
  cases a with
  | groupInit | initPerm | initIncoming | ehAdd | ask => exact hok.1.elim
  | step t => exact inv_stepThread hi hok.setNext hn
  | walk k t g =>
    obtain ⟨⟨rfl, rfl, hphase⟩, -⟩ := hok
    rw [act] at hn
    split at hn <;> simp only [Option.some.injEq, reduceCtorEq] at hn
    rename_i hl
    subst hn
    have hw := hi.walk
    rw [hl] at hw
    have hb : Before g L s 0 := by
      rcases hw with hb | ⟨k', ha⟩
      · exact hb
      · rw [ha.phase] at hphase
        cases hphase
    refine ⟨hi.lock.keep (l := .bug k g) rfl rfl (by rw [hl]; rfl), hi.nodup, hi.zero,
      at_goto (P := WalkInv g L _) (l := .bug k g) rfl ⟨rfl, ?_⟩, fun u hu => ?_⟩
    · exact ⟨hb.phase, fun d => (hb.list d).of_eq rfl (fun _ _ => rfl) fun _ _ => rfl, hb.egState,
        hb.cleared, hb.cleaned, hb.steps⟩
    · have hloc : (s.goto t (.bug k g)).loc u = s.loc u := Function.update_of_ne hu _ _
      rw [hloc]
      exact hi.others u hu
  | setOutgoing t h g =>
    obtain ⟨⟨ht, hg⟩, -⟩ := hok
    rw [act] at hn
    split at hn <;> simp only [Option.some.injEq, reduceCtorEq] at hn
    rename_i hl _
    subst hn
    have ho : Others F egp s (s.goto t (.lock h g)) :=
      ⟨Function.update_of_ne (Ne.symm ht) _ _, rfl, fun _ _ => rfl, rfl, rfl, rfl, rfl,
        fun _ _ _ hd => hd, fun _ => rfl, fun _ _ _ _ => rfl, fun _ _ => rfl⟩
    refine ⟨hi.lock.keep (l := .lock h g) rfl rfl (by rw [hl]; rfl), hi.nodup, hi.zero,
      ho.walk hi.nodup hi.walk, fun u hu => ?_⟩
    by_cases hut : u = t
    · subst hut
      exact at_goto (P := OtherInv egp _) (l := .lock h g) rfl hg
    · have hloc : (s.goto t (.lock h g)).loc u = s.loc u := Function.update_of_ne hut _ _
      rw [hloc]
      exact hi.others u hu

omit [DecidableEq τ] in
theorem inv_observe (hi : Inv F egp L s) : Inv F egp L s.observe :=
  have ho : Others F egp s s.observe :=
    ⟨rfl, rfl, fun _ _ => rfl, rfl, rfl, rfl, rfl, fun _ _ _ hd => hd, fun _ => rfl,
      fun _ _ _ _ => rfl, fun _ _ => rfl⟩
  ⟨hi.lock, hi.nodup, hi.zero, ho.walk hi.nodup hi.walk, hi.others⟩

/-- A step retires heads only, and the walk comes to the `next` of a head right
after it has retired it. -/
theorem keeps_retired {a : Act τ H} (hi : Inv F egp L m.st) (hok : RelinkOk F egp (.act a) m)
    (hn : act a m.st = some s') : m.st.cleaned egp ⊆ s'.cleaned egp ∧
      ∀ h ∈ m.st.cleaned egp, (m.st.loc F).atNext h = false → (s'.loc F).atNext h = false := by
  obtain ⟨s, queued, freed⟩ := m
  cases a with
  | groupInit | initPerm | initIncoming | ehAdd | ask => exact hok.1.elim
  | step t =>
    by_cases ht : t = F
    · subst ht
      have hs := (walk_step hi hn).2
      exact ⟨hs.cleaned, fun h hc _ => Bool.eq_false_iff.mpr fun hh => hs.atNext h hh hc⟩
    · have ho := (other_step hi ht hok.setNext hn).1
      rw [ho.cleaned, ho.loc]
      exact ⟨List.Subset.refl _, fun _ _ => id⟩
  | walk k t g =>
    obtain ⟨⟨rfl, -⟩, -⟩ := hok
    rw [act] at hn
    split at hn <;> simp only [Option.some.injEq, reduceCtorEq] at hn
    subst hn
    refine ⟨List.Subset.refl _, fun h _ _ => ?_⟩
    exact at_goto (P := fun l => l.atNext h = false) (l := .bug k g) rfl rfl
  | setOutgoing t h g =>
    obtain ⟨⟨ht, -⟩, -⟩ := hok
    rw [act] at hn
    split at hn <;> simp only [Option.some.injEq, reduceCtorEq] at hn
    subst hn
    refine ⟨List.Subset.refl _, fun h' _ hat => ?_⟩
    have hloc : (s.goto t (.lock h g)).loc F = s.loc F := Function.update_of_ne (Ne.symm ht) _ _
    rw [hloc]
    exact hat

/-- The head that `call_rcu` is called for is retired. -/
theorem callRcu_retired {a : Act τ H} {h : H} (hi : MemInv F egp L m)
    (hok : RelinkOk F egp (.act a) m) (hn : act a m.st = some s')
    (hq : callRcu a m.st m.queued h = true) : h ∈ s'.cleaned egp := by
  have hkeep := (keeps_retired hi.inv hok hn).1
  cases a with
  | step t =>
    simp only [callRcu] at hq
    cases hl : m.st.loc t with
    | cleanUnlock k g h' =>
      simp only [hl] at hq
      by_cases hh : h = h'
      · subst hh
        have ht : t = F := by
          by_contra ht
          have ho := hi.inv.others t ht
          rw [hl] at ho
          exact ho
        subst ht
        exact retires hi.inv hl hn
      · rw [Function.update_of_ne hh] at hq
        exact hkeep (hi.queued h hq)
    | _ =>
      simp only [hl] at hq
      exact hkeep (hi.queued h hq)
  | _ => exact hkeep (hi.queued h hq)

omit [DecidableEq τ] in
theorem inv_callback {h : H} {frees : Bool} (hi : MemInv F egp L m)
    (hok : RelinkOk F egp (.callback h frees) m) (hq : m.queued h = true) :
    MemInv F egp L (m.callback h frees) where
  inv := hi.inv
  queued h' hh := by
    refine hi.queued h' ?_
    by_cases he : h' = h
    · exact he ▸ hq
    · exact (Function.update_of_ne he _ m.queued).symm.trans hh
  freed h' hh := by
    cases frees with
    | false => exact hi.freed h' hh
    | true =>
      by_cases he : h' = h
      · subst he
        exact ⟨hi.queued h' hq, hok.2 rfl⟩
      · exact hi.freed h' ((Function.update_of_ne he _ m.freed).symm.trans hh)

omit [DecidableEq τ] in
/-- Who holds the lock of a head is in a call on it, or retires it. -/
theorem calls_of_holds {h : H} {l : Loc H} (hl : l.holds = some h) : l.calls h = true ∨
    ∃ k g, l = .cleanBug k g h ∨ l = .cleanGone k g h ∨ l = .cleanUnlock k g h := by
  cases l with
  | gone h' g | egi h' g | bugTag h' g | setTag h' g | unlock h' r =>
    exact .inl (decide_eq_true (Option.some.inj hl))
  | add d h' g pc =>
    cases d with
    | incoming => cases hl
    | outgoing => exact .inl (decide_eq_true (Option.some.inj hl))
  | cleanBug k g h' | cleanGone k g h' | cleanUnlock k g h' =>
    obtain rfl := Option.some.inj hl
    exact .inr ⟨k, g, by simp⟩
  | _ => cases hl

omit [DecidableEq τ] in
/-- The lock of a retired head is free, unless a call runs on the head. -/
theorem lock_retired {h : H} (hi : Inv F egp L s) (hc : h ∈ s.cleaned egp)
    (hcalls : ∀ t, (s.loc t).calls h = false) : s.lock h = none := by
  cases hk : s.lock h with
  | none => rfl
  | some u =>
    rcases calls_of_holds ((hi.lock h u).mp hk) with hu | ⟨k, g, hu⟩
    · rw [hcalls u] at hu
      cases hu
    · by_cases huF : u = F
      · have hw := hi.walk
        subst huF
        rcases hu with hu | hu | hu <;> rw [hu] at hw
        · obtain ⟨-, done, rest, hr⟩ := hw
          exact absurd hc (hr.not_cleaned hi.nodup h List.mem_cons_self)
        · obtain ⟨-, done, rest, hr⟩ := hw
          exact absurd hc (hr.not_cleaned hi.nodup h List.mem_cons_self)
        · obtain ⟨-, -, done, rest, hr⟩ := hw
          exact absurd hc (hr.not_cleaned hi.nodup h List.mem_cons_self)
      · have ho := hi.others u huF
        rcases hu with hu | hu | hu <;> rw [hu] at ho <;> exact ho.elim

omit [DecidableEq τ] in
/-- Memory that was freed is not the walk's any more. -/
theorem inv_overwrite {h : H} {c : Content H} (hi : MemInv F egp L m)
    (hok : RelinkOk F egp (.overwrite h c) m) (hf : m.freed h = true) :
    MemInv F egp L (m.overwrite h c) := by
  obtain ⟨hc, hat⟩ := hi.freed h hf
  have hne : ∀ h', h' ∉ m.st.cleaned egp → h' ≠ h := fun h' hh he => hh (he ▸ hc)
  have hnext : ∀ l, l ≠ .head h → (m.overwrite h c).st.next l = m.st.next l := by
    intro l hl
    unfold Mem.overwrite
    exact Function.update_of_ne hl _ _
  have hlink : ∀ h', h' ≠ h → Link.head h' ≠ Link.head h := fun h' hh he => hh (Link.head.inj he)
  have ho : Others F egp m.st (m.overwrite h c).st :=
    ⟨rfl, rfl, fun h' hh => Function.update_of_ne (hne h' hh) _ _, rfl, rfl, rfl, rfl,
      fun h' hh d hd => (Function.update_of_ne (hne h' hh) _ _).trans hd,
      fun d => hnext _ nofun, fun h' hh _ _ => hnext _ (hlink h' (hne h' hh)),
      fun h' hh => hnext _ (hlink h' fun he => by simp [he, hat] at hh)⟩
  have hlock : (m.overwrite h c).st.lock = m.st.lock :=
    Function.update_eq_self_iff.mpr (lock_retired hi.inv hc hok.1).symm
  refine ⟨⟨fun h' u => ?_, hi.inv.nodup, hi.inv.zero, ho.walk hi.inv.nodup hi.inv.walk,
    fun u hu => ?_⟩, hi.queued, hi.freed⟩
  · rw [hlock]
    exact hi.inv.lock h' u
  · -- a head that `u` works on is another one
    refine (hi.inv.others u hu).congr fun h' _ hcall _ => Function.update_of_ne ?_ _ _
    rintro rfl
    rw [hok.1 u] at hcall
    cases hcall

theorem inv_step {e : Ev τ H} (hi : MemInv F egp L m) (hok : RelinkOk F egp e m)
    (hn : m.next e = some m') : MemInv F egp L m' := by
  cases e with
  | act a =>
    obtain ⟨s', hs, rfl⟩ := Option.map_eq_some_iff.mp hn
    obtain ⟨s₀, h0, rfl⟩ := Option.map_eq_some_iff.mp hs
    obtain ⟨hsub, hat⟩ := keeps_retired hi.inv hok h0
    have hret : ∀ h, callRcu a m.st m.queued h = true → h ∈ s₀.cleaned egp := fun h =>
      callRcu_retired hi hok h0
    refine ⟨inv_observe (inv_act hi.inv hok h0), hret, fun h hf => ?_⟩
    obtain ⟨hc, hF⟩ := hi.freed h hf
    exact ⟨hsub hc, hat h hc hF⟩
  | callback h frees =>
    obtain ⟨hq, rfl⟩ := Option.ite_none_right_eq_some.mp hn |>.imp_right Option.some.inj
    exact inv_callback hi hok hq
  | overwrite h c =>
    obtain ⟨hf, rfl⟩ := Option.ite_none_right_eq_some.mp hn |>.imp_right Option.some.inj
    exact inv_overwrite hi hok hf

theorem reach_inv (h : (builtSys τ H egp L).Reach (RelinkOk F egp) m) : MemInv F egp L m := by
  refine h.inv (fun m h0 => ⟨inv_init h0.1, fun h hq => ?_, fun h hf => ?_⟩)
    fun _ _ _ hi hok hn => inv_step hi hok hn
  · rw [h0.2.1] at hq
    cases hq
  · rw [h0.2.2] at hf
    cases hf

/-! ### The walk stays inside -/

theorem next_isSome (s : St τ H) (t : τ) :
    (next (.step t) s).isSome = (stepThread t s).isSome := Option.isSome_map

/-- A thread that holds a lock to put a head into another group can go on. -/
theorem holder_goes_on {h : H} (hi : Inv F egp L s) (hu : u ≠ F)
    (hh : (s.loc u).holds = some h) : (stepThread u s).isSome := by
  have ho := hi.others u hu
  unfold stepThread
  cases hl : s.loc u with
  | gone | egi | setTag | unlock => simp
  | bugTag a g =>
    rw [hl] at ho
    simp [hi.zero g ho.1]
  | add d a g pc => cases pc <;> simp
  | _ =>
    rw [hl] at ho hh
    first | exact ho.elim | cases hh

theorem goes_on (hi : Inv F egp L s) (hF : s.loc F ≠ .idle) : (stepThread F s).isSome ∨
    ∃ k h u, s.loc F = .cleanLock k egp (.head h) ∧ s.lock h = some u ∧ u ≠ F ∧
      (stepThread u s).isSome := by
  have hw := hi.walk
  cases hl : s.loc F with
  | idle => exact absurd hl hF
  | bug k g =>
    rw [hl] at hw
    obtain ⟨rfl, hb⟩ := hw
    left
    unfold stepThread
    cases k <;> simp [hl, hb.egState]
  | setState | clearNext | cleanGone | cleanUnlock =>
    left
    unfold stepThread
    simp [hl]
  | cleanNext k g x =>
    left
    unfold stepThread
    simp only [hl]
    split <;> rfl
  | clear k g x =>
    rw [hl] at hw
    obtain ⟨-, done, a, rest, h⟩ := hw
    obtain ⟨rfl, -⟩ := h.rest.cons
    left
    unfold stepThread
    simp [hl]
  | cleanBug k g a =>
    rw [hl] at hw
    obtain ⟨-, done, rest, h⟩ := hw
    left
    unfold stepThread
    simp [hl, h.rest.gone a List.mem_cons_self]
  | cleanLock k g x =>
    rw [hl] at hw
    obtain ⟨rfl, done, a, rest, h⟩ := hw
    obtain ⟨rfl, -⟩ := h.rest.cons
    cases hk : s.lock a with
    | none =>
      left
      unfold stepThread
      simp [hl, hk]
    | some u =>
      right
      have hh := (hi.lock a u).mp hk
      have hu : u ≠ F := by
        rintro rfl
        rw [hl] at hh
        cases hh
      exact ⟨k, a, u, rfl, hk, hu, holder_goes_on hi hu hh⟩
  | _ =>
    rw [hl] at hw
    exact hw.elim

theorem walk_inside (h : (builtSys τ H egp L).Reach (RelinkOk F egp) m) : Inside F egp L m.st := by
  have hi := (reach_inv h).inv
  have hv := hi.walk.visited
  refine ⟨hv.running, hv.inOrder, hv.finished, hi.nodup, fun s' hn => ?_, hv.bounded, fun hF => ?_⟩
  · obtain ⟨s₀, h0, rfl⟩ := Option.map_eq_some_iff.mp hn
    have hs := (walk_step hi h0).2
    exact ⟨hs.next, hs.prev, hs.egi⟩
  · simp only [next_isSome]
    exact goes_on hi hF

instance [Fintype τ] : (e : Ev τ H) → (m : Mem τ H) → Decidable (Walking F egp e m)
  | .act (.walk _ t g), m => inferInstanceAs (Decidable (t = F ∧ g = egp ∧ m.st.phase egp = .building))
  | .act (.setOutgoing t _ g), _ => inferInstanceAs (Decidable (t ≠ F ∧ g ≠ egp))
  | .act (.step _), _ => .isTrue trivial
  | .act (.groupInit ..), _ | .act (.initPerm ..), _ | .act (.initIncoming ..), _
  | .act (.ehAdd ..), _ | .act (.ask ..), _ => .isFalse id
  | .callback h _, m | .overwrite h _, m =>
    inferInstanceAs (Decidable (∀ t, (m.st.loc t).calls h = false))

instance [Fintype τ] (e : Ev τ H) (m : Mem τ H) : Decidable (RelinkOk F egp e m) := by
  unfold RelinkOk
  match e with
  | .act (.step t) =>
    dsimp only
    induction m.st.loc t using Loc.casesOn with
    | add d h g pc => induction pc using AddPc.casesOn <;> exact inferInstance
    | _ => exact inferInstance
  | .act (.groupInit ..) | .act (.initPerm ..) | .act (.initIncoming ..) | .act (.ehAdd ..)
  | .act (.setOutgoing ..) | .act (.walk ..) | .act (.ask ..) | .callback .. | .overwrite .. =>
    exact inferInstance

/-! ### A head claimed or freed before the walk has moved on -/

def groupA : Group := ⟨8, aligned_eight⟩
def groupB : Group := ⟨16, by decide⟩

/-- Head 0 is incoming in group A, heads 2 and 3 are outgoing there, and head 1
is outgoing in group B. -/
def startLists : Side → List (Fin 4)
  | .incoming => [0]
  | .outgoing => [2, 3]

def startLinks : Link (Fin 4) → Link (Fin 4)
  | .head h =>
    if h = 0 then .list groupA .incoming else if h = 1 then .list groupB .outgoing
    else if h = 2 then .head 3 else .list groupA .outgoing
  | .list g d =>
    if g = groupA then match d with
      | .incoming => .head 0
      | .outgoing => .head 2
    else if g = groupB ∧ d = .outgoing then .head 1 else .list g d

def startBack : Link (Fin 4) → Link (Fin 4)
  | .head h =>
    if h = 0 then .list groupA .incoming else if h = 1 then .list groupB .outgoing
    else if h = 2 then .list groupA .outgoing else .head 2
  | .list g d =>
    if g = groupA then match d with
      | .incoming => .head 0
      | .outgoing => .head 3
    else if g = groupB ∧ d = .outgoing then .head 1 else .list g d

def startMember (h : Fin 4) : Group × Side :=
  if h = 0 then (groupA, .incoming) else if h = 1 then (groupB, .outgoing) else (groupA, .outgoing)

def start : St (Fin 2) (Fin 4) where
  egState _ := 0
  egi h := tag (startMember h).1 (startMember h).2
  gone _ := false
  lock _ := none
  next := startLinks
  prev := startBack
  loc _ := .idle
  ret _ := none
  answer _ := none
  known _ := true
  member h := some (startMember h)
  placed _ := true
  phase _ := .building
  owner _ := none
  cleared _ := []
  cleaned _ := []
  steps _ := 0
  seen _ _ := false

def startMem : Mem (Fin 2) (Fin 4) := ⟨start, fun _ => false, fun _ => false⟩

theorem start_built : Built groupA startLists start where
  loc _ := rfl
  lock _ := rfl
  egState _ := rfl
  path d := by
    cases d with
    | incoming => exact ⟨rfl, rfl⟩
    | outgoing => exact ⟨rfl, rfl, rfl⟩
  nodup d := by cases d <;> decide
  egi d := by cases d <;> decide
  gone _ _ _ := rfl
  phase := rfl
  cleared := rfl
  cleaned := rfl
  steps := rfl

theorem start_init : (builtSys (Fin 2) (Fin 4) groupA startLists).init startMem :=
  ⟨start_built, fun _ => rfl, fun _ => rfl⟩

/-- `n` steps of thread `t` in a row. -/
def steps (n : ℕ) (t : Fin 2) : List (Ev (Fin 2) (Fin 4)) := List.replicate n (.act (.step t))

/-- The memory of a head is used for one that is outgoing in group B, before head 1. -/
def inGroupB : Content (Fin 4) :=
  ⟨tag groupB .outgoing, false, .head 1, .list groupB .outgoing⟩

/-- Thread 0 flips group A and is past head 0 when thread 1 claims it for
group B, and past head 2 when that is freed. -/
def claimedBehind : List (Ev (Fin 2) (Fin 4)) :=
  [.act (.walk .flip 0 groupA)] ++ steps 5 0 ++ [.act (.setOutgoing 1 0 groupB)] ++ steps 12 1 ++
    steps 6 0 ++ [.callback 2 true, .overwrite 2 inGroupB] ++ steps 5 0

theorem walk_inside_run : ∃ m, (builtSys (Fin 2) (Fin 4) groupA startLists).Reach
    (RelinkOk 0 groupA) m ∧ (m.st.phase groupA, m.st.ret 1, m.freed 2) =
      (.finished .flip, some 0, true) ∧ Inside 0 groupA startLists m.st := by
  have hrun : ((builtSys (Fin 2) (Fin 4) groupA startLists).run (RelinkOk 0 groupA) claimedBehind
      startMem).map (fun m => (m.st.phase groupA, m.st.ret 1, m.freed 2)) =
        some (.finished .flip, some 0, true) := by
    decide +kernel
  obtain ⟨m, hm, hd⟩ := Option.map_eq_some_iff.mp hrun
  have hr := Sys.run_reach (.init start_init) hm
  exact ⟨m, hr, hd, walk_inside hr⟩

/-- As `claimedBehind`, but thread 0 has not loaded the `next` of head 0 yet
when thread 1 stores to it, and clears head 1, which is in group B. -/
def claimedUnderWalk : List (Ev (Fin 2) (Fin 4)) :=
  [.act (.walk .flip 0 groupA)] ++ steps 4 0 ++ [.act (.setOutgoing 1 0 groupB)] ++ steps 9 1 ++
    steps 2 0

theorem walks_into_other_group : ¬ ∀ m, (builtSys (Fin 2) (Fin 4) groupA startLists).Reach
    (Walking 0 groupA) m → Inside 0 groupA startLists m.st := by
  intro h
  have hrun : ((builtSys (Fin 2) (Fin 4) groupA startLists).run (Walking 0 groupA) claimedUnderWalk
      startMem).map (fun m => (m.st.phase groupA, m.st.cleared groupA)) =
        some (.running .flip, [0, 1]) := by
    decide +kernel
  obtain ⟨m, hm, hd⟩ := Option.map_eq_some_iff.mp hrun
  obtain ⟨hp, hc⟩ := Prod.mk.inj hd
  have hpre := ((h m (Sys.run_reach (.init start_init) hm)).running .flip hp).1
  rw [hc] at hpre
  exact absurd hpre (by decide)

/-- Thread 0 has retired head 2 and not loaded its `next` yet when the callback
frees it, and retires head 1, which is in group B. -/
def freedUnderWalk : List (Ev (Fin 2) (Fin 4)) :=
  [.act (.walk .flip 0 groupA)] ++ steps 10 0 ++ [.callback 2 true, .overwrite 2 inGroupB] ++
    steps 5 0

theorem retires_from_other_group : ∃ m, (builtSys (Fin 2) (Fin 4) groupA startLists).Reach
    (Walking 0 groupA) m ∧ m.st.cleaned groupA = [2, 1] ∧ m.st.egi 1 = tag groupB .outgoing := by
  have hrun : ((builtSys (Fin 2) (Fin 4) groupA startLists).run (Walking 0 groupA) freedUnderWalk
      startMem).map (fun m => (m.st.cleaned groupA, m.st.egi 1)) =
        some ([2, 1], tag groupB .outgoing) := by
    decide +kernel
  obtain ⟨m, hm, hd⟩ := Option.map_eq_some_iff.mp hrun
  exact ⟨m, Sys.run_reach (.init start_init) hm, Prod.mk.inj hd⟩

end Walk
end Existence
end Perfbook
