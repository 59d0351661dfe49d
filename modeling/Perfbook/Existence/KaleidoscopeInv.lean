/-
# A kaleidoscope group selects one state

Each added head is on the list of its state. A commit has come past the heads of the
lists before the current one, and past those in the current list that are not in
`rest` (`Passed`). Those of the group's state have `kh_kgi = 0` then, the others are
removed, and a head that it has not come to is as it was added (`HeadInv`).

Only heads that the commit has come past are freed (`InvAt.dead`), so the links of all
others, and of the head whose link is loaded next, are those that the lists had when the
commit began (`lk`). This needs that the callback of that head does not run before the
load: if it does, the commit goes on in memory that was freed (`removes_twice`).

Key definitions: `Passed`, `HeadInv`, `InvAt`.
Key theorems: `forstate_eq`, `exists_tag`, `InvAt.pass`, `InvAt.commitStep`, `Inv.selects`, `selects_one_state`,
`removes_twice`.
-/
import Mathlib.Data.Set.Function
import Perfbook.Existence.Kaleidoscope

namespace Perfbook
namespace Kaleidoscope

open Conc

variable {H : Type} {kgp : Group}

/-! ### Tags -/

variable {state : Word}

/-- A word is its bits in the mask, and the others. -/
theorem mask_split (a m : Word) : (a &&& m) ||| (a &&& ~~~m) = a := by
  rw [← BitVec.and_or_distrib_left, BitVec.or_not_self, BitVec.and_allOnes]

theorem and_mask_iff : state &&& ~~~KALEID_MASK = 0 ↔ state &&& KALEID_MASK = state := by
  constructor
  · intro h
    have hs := mask_split state KALEID_MASK
    rw [h] at hs
    exact BitVec.or_zero.symm.trans hs
  · intro h
    rw [← h, BitVec.and_assoc, BitVec.and_not_self]
    exact BitVec.and_zero

theorem toNat_lt_iff : state.toNat < KALEID_N_STATES ↔ state &&& ~~~KALEID_MASK = 0 := by
  have hmod : (state &&& KALEID_MASK).toNat = state.toNat % 8 := by
    rw [BitVec.toNat_and]
    exact Nat.and_two_pow_sub_one_eq_mod state.toNat 3
  rw [and_mask_iff]
  constructor
  · intro h
    exact BitVec.eq_of_toNat_eq (hmod.trans (Nat.mod_eq_of_lt h))
  · intro h
    rw [← h, hmod]
    exact Nat.mod_lt _ (by decide)

theorem group_and_not (g : Group) : g.1 &&& ~~~KALEID_MASK = g.1 := by
  have hs := mask_split g.1 KALEID_MASK
  rw [g.2.2] at hs
  exact BitVec.zero_or.symm.trans hs

/-- The `BUG_ON` of a state in range. -/
theorem state_and_group (hs : state &&& ~~~KALEID_MASK = 0) : state &&& kgp.1 = 0 := by
  rw [← and_mask_iff.mp hs, BitVec.and_assoc, BitVec.and_comm KALEID_MASK, kgp.2.2]
  exact BitVec.and_zero

/-- **The tag of a state in range.** -/
theorem forstate_eq (hs : state &&& ~~~KALEID_MASK = 0) : forstate kgp.1 state = some (kgp.1 ||| state) := by
  rw [forstate, if_neg kgp.2.1, if_neg (not_not.mpr hs), if_neg (not_not.mpr (state_and_group hs))]

theorem of_forstate {tag : Word} (h : forstate kgp.1 state = some tag) :
    state &&& ~~~KALEID_MASK = 0 ∧ tag = kgp.1 ||| state := by
  have hs : state &&& ~~~KALEID_MASK = 0 := by
    by_contra hs
    rw [forstate, if_neg kgp.2.1, if_pos hs] at h
    cases h
  rw [forstate_eq hs] at h
  exact ⟨hs, (Option.some.inj h).symm⟩

theorem tag_ne_zero : kgp.1 ||| state ≠ 0 := fun h => kgp.2.1 (BitVec.or_eq_zero_iff.mp h).1

theorem tag_and_mask (hs : state &&& ~~~KALEID_MASK = 0) : (kgp.1 ||| state) &&& KALEID_MASK = state := by
  rw [BitVec.and_or_distrib_right, kgp.2.2, and_mask_iff.mp hs]
  exact BitVec.zero_or

theorem tag_and_not (hs : state &&& ~~~KALEID_MASK = 0) : (kgp.1 ||| state) &&& ~~~KALEID_MASK = kgp.1 := by
  rw [BitVec.and_or_distrib_right, hs, group_and_not]
  exact BitVec.or_zero

/-! ### The invariant -/

variable {s s' : St H} {lk : Links (Link H)} {lists : ℕ → List H} {rest : List H} {h h' e : H} {i : ℕ} {keep : Bool}

/-- **A head with a tag** exists in its state. -/
theorem exists_tag (hs : state &&& ~~~KALEID_MASK = 0) (hk : s.kgi h = kgp.1 ||| state) :
    kaleidoscopeExists s h = true ↔ state = s.mem kgp.1 := by
  rw [kaleidoscopeExists, hk, if_neg tag_ne_zero, tag_and_mask hs, tag_and_not hs, decide_eq_true_iff]

theorem exists_zero (hk : s.kgi h = 0) : kaleidoscopeExists s h = true := by
  rw [kaleidoscopeExists, hk, if_pos rfl]

/-- The commit has come past the head. -/
def Passed (s : St H) (rest : List H) (h : H) (state : Word) : Prop :=
  match s.phase with
  | .building => False
  | .commit i _ _ | .load i _ _ => state.toNat < i ∨ state.toNat = i ∧ h ∉ rest
  | .committed _ | .later _ => True

/-- What is known of a head that was added. -/
structure HeadInv (kgp : Group) (s : St H) (rest : List H) (h : H) (state : Word) : Prop where
  range : state &&& ~~~KALEID_MASK = 0
  before : ¬ Passed s rest h state →
    s.kgi h = kgp.1 ||| state ∧ s.gone h = false ∧ s.hasRemove h = s.removes h ∧ s.removed h = 0
  same : Passed s rest h state → state = s.current kgp → s.kgi h = 0 ∧ s.removed h = 0
  other : Passed s rest h state → state ≠ s.current kgp →
    (s.freed h = false → s.kgi h = kgp.1 ||| state) ∧ s.removed h = if s.removes h = true then 1 else 0

/-- The commit has removed the head. -/
def Dead (kgp : Group) (s : St H) (rest : List H) (h : H) : Prop :=
  ∃ state, s.kind h = .added state ∧ Passed s rest h state ∧ state ≠ s.current kgp

/-- Where the commit is. -/
def PhaseInv (kgp : Group) (s : St H) (lk : Links (Link H)) (lists : ℕ → List H) (rest : List H) : Phase H → Prop
  | .building => lk = s.links
  | .later _ => True
  | .commit i keep pos => i < KALEID_N_STATES ∧ keep = decide (BitVec.ofNat 64 i = s.mem kgp.1) ∧
      pos = first Link.head (.list i) rest ∧ ∃ pre, lists i = pre ++ rest
  | .load i keep e => i < KALEID_N_STATES ∧ keep = decide (BitVec.ofNat 64 i = s.mem kgp.1) ∧ s.freed e = false ∧
      ∃ pre, lists i = pre ++ e :: rest
  | .committed c => c = s.mem kgp.1

structure InvAt (kgp : Group) (s : St H) (lk : Links (Link H)) (lists : ℕ → List H) (rest : List H) : Prop where
  ring : ∀ i < KALEID_N_STATES, Ring Link.head (.list i) lk (lists i)
  links : ∀ x, (∀ h, x = .head h → s.freed h = false) → s.links.next x = lk.next x
  mem : ∀ h i, i < KALEID_N_STATES → (h ∈ lists i ↔ ∃ state, s.kind h = .added state ∧ state.toNat = i)
  head : ∀ h state, s.kind h = .added state → HeadInv kgp s rest h state
  dead : ∀ h, s.queued h = true ∨ s.freed h = true → Dead kgp s rest h
  outside : ∀ h, s.kind h = .outside → s.kgi h = 0
  removed : ∀ h, (s.kind h).isAdded = false → s.removed h = 0
  phase : PhaseInv kgp s lk lists rest s.phase

def Inv (kgp : Group) (s : St H) : Prop := ∃ lk lists rest, InvAt kgp s lk lists rest

/-- A head of which nothing has changed. -/
theorem HeadInv.congr {rest' : List H} (hh : HeadInv kgp s rest h state)
    (hp : Passed s' rest' h state ↔ Passed s rest h state) (hc : s'.current kgp = s.current kgp)
    (hk : s'.kgi h = s.kgi h) (hg : s'.gone h = s.gone h) (hr : s'.removed h = s.removed h)
    (hf : s'.hasRemove h = s.hasRemove h) (hm : s'.removes h = s.removes h) (hd : s'.freed h = s.freed h) :
    HeadInv kgp s' rest' h state where
  range := hh.range
  before hn := by
    rw [hk, hg, hr, hf, hm]
    exact hh.before fun h => hn (hp.mpr h)
  same hpass hst := by
    rw [hk, hr]
    exact hh.same (hp.mp hpass) (hst.trans hc)
  other hpass hst := by
    rw [hk, hr, hm, hd]
    exact hh.other (hp.mp hpass) fun he => hst (he.trans hc.symm)

/-- While the group is built, nothing is passed. -/
theorem not_passed (hb : s.phase = .building) : ¬ Passed s rest h state := by
  rw [Passed, hb]
  exact id

theorem HeadInv.building (hb : s.phase = .building) (hs : state &&& ~~~KALEID_MASK = 0)
    (hh : s.kgi h = kgp.1 ||| state ∧ s.gone h = false ∧ s.hasRemove h = s.removes h ∧ s.removed h = 0) :
    HeadInv kgp s rest h state :=
  ⟨hs, fun _ => hh, fun hp => absurd hp (not_passed hb), fun hp => absurd hp (not_passed hb)⟩

theorem Dead.congr {rest' : List H} (hd : Dead kgp s rest h)
    (hp : ∀ state, s.kind h = .added state → Passed s rest h state → Passed s' rest' h state)
    (hc : s'.current kgp = s.current kgp) (hk : s'.kind h = s.kind h) : Dead kgp s' rest' h := by
  obtain ⟨st, hst, hpass, hne⟩ := hd
  exact ⟨st, hk.trans hst, hp st hst hpass, hc ▸ hne⟩

namespace InvAt

variable (hi : InvAt kgp s lk lists rest)
include hi

/-- The group still has its state. -/
theorem current_eq (hl : ∀ c, s.phase ≠ .later c) : s.current kgp = s.mem kgp.1 := by
  have hp := hi.phase
  rw [St.current]
  revert hl hp
  cases s.phase with
  | building => exact fun _ _ => rfl
  | commit i keep pos => exact fun _ _ => rfl
  | load i keep e => exact fun _ _ => rfl
  | committed c => exact fun _ hp => hp
  | later c => exact fun hl => absurd rfl (hl c)

theorem head_of_mem (hn : i < KALEID_N_STATES) (hm : h ∈ lists i) :
    ∃ state, s.kind h = .added state ∧ state.toNat = i ∧ HeadInv kgp s rest h state := by
  obtain ⟨state, hk, hs⟩ := (hi.mem h i hn).mp hm
  exact ⟨state, hk, hs, hi.head h state hk⟩

/-- While the group is built, nothing is freed. -/
theorem not_dead (hb : s.phase = .building) : ¬ (s.queued h = true ∨ s.freed h = true) := fun hd => by
  obtain ⟨_, _, hp, _⟩ := hi.dead h hd
  exact not_passed hb hp

theorem links_eq (hb : s.phase = .building) : lk = s.links := by
  have hp := hi.phase
  rwa [hb] at hp

/-- The head that the commit is about to come past. -/
theorem ahead {r : List H} (hphase : s.phase = .commit i keep (.head e)) (hrest : rest = e :: r) :
    ∃ st, s.kind e = .added st ∧ st.toNat = i ∧ HeadInv kgp s rest e st ∧ ¬ Passed s rest e st := by
  have hp := hi.phase
  rw [hphase] at hp
  obtain ⟨hlt, -, -, pre, hpre⟩ := hp
  obtain ⟨st, hst, hsti, hhe⟩ := hi.head_of_mem hlt (h := e) (by rw [hpre, hrest]; simp)
  refine ⟨st, hst, hsti, hhe, ?_⟩
  rw [Passed, hphase, hrest]
  exact fun hp => hp.elim (fun hp => absurd hsti hp.ne) fun hp => hp.2 List.mem_cons_self

/-- **The commit comes past a head**, and goes on to the load of its link. -/
theorem pass {r : List H} (hphase : s.phase = .commit i keep (.head e)) (hrest : rest = e :: r)
    {kgi : H → Word} {gone queued : H → Bool} {removed : H → ℕ} (hk : ∀ h, h ≠ e → kgi h = s.kgi h)
    (hg : ∀ h, h ≠ e → gone h = s.gone h) (hr : ∀ h, h ≠ e → removed h = s.removed h)
    (hq : ∀ h, queued h = true → s.queued h = true ∨ h = e ∧ keep = false)
    (hsame : keep = true → kgi e = 0 ∧ removed e = s.removed e)
    (hother : keep = false → kgi e = s.kgi e ∧ removed e = s.removed e + if s.hasRemove e = true then 1 else 0) :
    InvAt kgp { s with phase := .load i keep e, kgi := kgi, gone := gone, removed := removed, queued := queued }
      lk lists r := by
  obtain ⟨st, hst, hsti, hhe, hnot⟩ := hi.ahead hphase hrest
  have hp := hi.phase
  rw [hphase] at hp
  obtain ⟨hlt, hkeep, -, pre, hpre⟩ := hp
  subst hrest
  have hnd := (hi.ring i hlt).nodup
  rw [hpre] at hnd
  have her : e ∉ r := (List.nodup_cons.mp (List.nodup_append.mp hnd).2.1).1
  obtain ⟨htag, -, hhas, hrem⟩ := hhe.before hnot
  have hcur : s.current kgp = s.mem kgp.1 := hi.current_eq fun c => by rw [hphase]; nofun
  have hst64 : BitVec.ofNat 64 i = st := by
    rw [← hsti, BitVec.ofNat_toNat, BitVec.setWidth_eq]
  rw [hst64] at hkeep
  have hfreed : s.freed e = false := Bool.eq_false_iff.mpr fun hf => by
    obtain ⟨st', hst', hpass, -⟩ := hi.dead e (.inr hf)
    exact hnot (Kind.added.inj (hst'.symm.trans hst) ▸ hpass)
  -- all heads that were passed still are
  have hpassed : ∀ h st, Passed s (e :: r) h st →
      Passed { s with phase := .load i keep e, kgi := kgi, gone := gone, removed := removed, queued := queued } r h st :=
    fun h st hp => by
      rw [Passed, hphase] at hp
      exact hp.imp_right fun hp => ⟨hp.1, fun hm => hp.2 (List.mem_cons_of_mem e hm)⟩
  refine ⟨hi.ring, hi.links, hi.mem, fun h st' hk' => ?_, fun h hd => ?_,
    fun h ho => (hk h fun he => ?_).trans (hi.outside h ho), fun h ha => (hr h fun he => ?_).trans (hi.removed h ha),
    hlt, by rw [hst64]; exact hkeep, hfreed, pre, hpre⟩
  · by_cases he : h = e
    · subst he
      obtain rfl : st' = st := by
        rw [show s.kind h = .added st' from hk'] at hst
        exact Kind.added.inj hst
      refine ⟨hhe.range, fun hn => absurd (.inr ⟨hsti, her⟩) hn, fun _ hs => ?_, fun _ hs => ?_⟩
      · have hkt : keep = true := hkeep.trans (decide_eq_true hs)
        exact ⟨(hsame hkt).1, (hsame hkt).2.trans hrem⟩
      · have hkf : keep = false := hkeep.trans (decide_eq_false hs)
        refine ⟨fun _ => (hother hkf).1.trans htag, (hother hkf).2.trans ?_⟩
        rw [hrem, hhas, Nat.zero_add]
    · refine (hi.head h st' hk').congr ?_ hcur.symm (hk h he) (hg h he) (hr h he) rfl rfl rfl
      rw [Passed, Passed, hphase]
      exact or_congr_right (and_congr_right fun _ => not_congr (by simp [he]))
  · have hold : s.queued h = true ∨ s.freed h = true → Dead kgp _ r h := fun hd =>
      (hi.dead h hd).congr (fun st _ => hpassed h st) hcur.symm rfl
    rcases hd with hd | hd
    · rcases hq h hd with hd | ⟨rfl, hkf⟩
      · exact hold (.inl hd)
      · exact ⟨st, hst, .inr ⟨hsti, her⟩, of_decide_eq_false (hkeep.symm.trans hkf)⟩
    · exact hold (.inr hd)
  · rw [he, hst] at ho
    cases ho
  · rw [he, hst] at ha
    cases ha

/-- **The link is loaded**, from memory that was not freed. -/
theorem loads (hphase : s.phase = .load i keep e) :
    InvAt kgp { s with phase := .commit i keep (s.links.next (.head e)) } lk lists rest := by
  have hp := hi.phase
  rw [hphase] at hp
  obtain ⟨hlt, hkeep, hfreed, pre, hpre⟩ := hp
  have hcur : s.current kgp = s.mem kgp.1 := hi.current_eq fun c => by rw [hphase]; nofun
  have hpassed : ∀ h st, Passed { s with phase := .commit i keep (s.links.next (.head e)) } rest h st ↔
      Passed s rest h st := fun h st => by
    rw [Passed, Passed, hphase]
  have hring := hi.ring i hlt
  rw [hpre] at hring
  have hnext : s.links.next (.head e) = first Link.head (.list i) rest :=
    (hi.links (.head e) fun h he => Link.head.inj he ▸ hfreed).trans hring.next_mem
  refine ⟨hi.ring, hi.links, hi.mem,
    fun h st hk => (hi.head h st hk).congr (hpassed h st) hcur.symm rfl rfl rfl rfl rfl rfl,
    fun h hd => (hi.dead h hd).congr (fun st _ => (hpassed h st).mpr) hcur.symm rfl, hi.outside, hi.removed,
    hlt, hkeep, hnext, pre ++ [e], ?_⟩
  rw [hpre]
  simp

variable [DecidableEq H]

/-- The body of the loop, and there is no `BUG_ON`. -/
theorem bodyStep {r : List H} (hphase : s.phase = .commit i keep (.head e)) (hrest : rest = e :: r) :
    ∃ s', commitStep kgp s = some s' ∧ Inv kgp s' := by
  have hstep : commitStep kgp s =
      if keep then some { s with phase := .load i keep e, kgi := Function.update s.kgi e 0 }
      else cleanupGone { s with phase := .load i keep e } e := by
    rw [commitStep, hphase]
  rw [hstep]
  cases keep with
  | true =>
    exact ⟨_, rfl, lk, lists, r, hi.pass hphase hrest (fun h he => Function.update_of_ne he ..) (fun _ _ => rfl)
      (fun _ _ => rfl) (fun _ => .inl) (fun _ => ⟨Function.update_self .., rfl⟩) nofun⟩
  | false =>
    obtain ⟨st, -, -, hhe, hnot⟩ := hi.ahead hphase hrest
    have hgone : s.gone e = false := (hhe.before hnot).2.1
    simp only [Bool.false_eq_true, if_false, cleanupGone, hgone]
    refine ⟨_, rfl, lk, lists, r, hi.pass hphase hrest (fun _ _ => rfl)
      (fun h he => Function.update_of_ne he ..) (fun h he => ?_) (fun h hq => ?_) nofun fun _ => ⟨rfl, ?_⟩⟩
    · split
      · exact Function.update_of_ne he ..
      · rfl
    · by_cases he : h = e
      · exact .inr ⟨he, rfl⟩
      · rw [Function.update_of_ne he] at hq
        exact .inl hq
    · split
      · exact Function.update_self ..
      · rfl

/-- On to the next list, or the commit is over. -/
theorem listStep (hphase : s.phase = .commit i keep (.list i)) (hrest : rest = []) :
    ∃ s', commitStep kgp s = some s' ∧ Inv kgp s' := by
  have hp := hi.phase
  rw [hphase] at hp
  obtain ⟨-, -, -, pre, hpre⟩ := hp
  subst hrest
  have hcur : s.current kgp = s.mem kgp.1 := hi.current_eq fun c => by rw [hphase]; nofun
  have hpassed : ∀ h st, s.kind h = .added st → (Passed s [] h st ↔ st.toNat < i + 1) := fun h st _ => by
    rw [Passed, hphase, Nat.lt_succ_iff_lt_or_eq]
    exact or_congr_right (and_iff_left List.not_mem_nil)
  by_cases hlast : i + 1 < KALEID_N_STATES
  · have hiff : ∀ h st, s.kind h = .added st →
        (Passed { s with phase := commitList kgp s (i + 1) } (lists (i + 1)) h st ↔ Passed s [] h st) :=
      fun h st hk => by
        rw [hpassed h st hk]
        exact or_iff_left fun hn => hn.2 ((hi.mem h _ hlast).mpr ⟨st, hk, hn.1⟩)
    have hfirst : s.links.next (.list (i + 1)) = first Link.head (.list (i + 1)) (lists (i + 1)) :=
      (hi.links (.list (i + 1)) nofun).trans (hi.ring _ hlast).next_head
    refine ⟨{ s with phase := commitList kgp s (i + 1) }, ?_, lk, lists, lists (i + 1), hi.ring, hi.links, hi.mem,
      fun h st hk => (hi.head h st hk).congr (hiff h st hk) hcur.symm rfl rfl rfl rfl rfl rfl,
      fun h hd => (hi.dead h hd).congr (fun st hk => (hiff h st hk).mpr) hcur.symm rfl, hi.outside, hi.removed,
      hlast, rfl, hfirst, [], rfl⟩
    rw [commitStep, hphase]
    dsimp only
    rw [if_neg (not_not.mpr rfl), if_pos hlast]
  · refine ⟨{ s with phase := .committed (s.mem kgp.1) }, ?_, lk, lists, [], hi.ring, hi.links, hi.mem,
      fun h st hk => ?_, fun h hd => (hi.dead h hd).congr (fun _ _ _ => trivial) hcur.symm rfl, hi.outside,
      hi.removed, rfl⟩
    · rw [commitStep, hphase]
      dsimp only
      rw [if_neg (not_not.mpr rfl), if_neg hlast]
    · refine (hi.head h st hk).congr ?_ hcur.symm rfl rfl rfl rfl rfl rfl
      rw [hpassed h st hk]
      have hrange := toNat_lt_iff.mpr (hi.head h st hk).range
      exact iff_of_true trivial (by omega)

/-- **A step of the commit** keeps the selection, and there is no `BUG_ON`. -/
theorem commitStep (hc : s.phase.commits = true) : ∃ s', commitStep kgp s = some s' ∧ Inv kgp s' := by
  cases hphase : s.phase with
  | load i keep e =>
    refine ⟨_, ?_, lk, lists, rest, hi.loads hphase⟩
    rw [Kaleidoscope.commitStep, hphase]
  | commit i keep pos =>
    have hp := hi.phase
    rw [hphase] at hp
    have hpos := hp.2.2.1
    cases rest with
    | cons e r =>
      rw [first_cons] at hpos
      subst hpos
      exact hi.bodyStep hphase rfl
    | nil =>
      rw [first_nil] at hpos
      subst hpos
      exact hi.listStep hphase rfl
  | building | committed | later =>
    rw [hphase] at hc
    cases hc

/-! ### Memory that is freed -/

/-- **A callback runs**, after the link was loaded. -/
theorem callback (hq : s.queued e = true) (hok : ∀ i keep, s.phase ≠ .load i keep e) {freed : H → Bool}
    (hf : ∀ h, h ≠ e → freed h = s.freed h) (hlive : ∀ h, freed h = false → s.freed h = false) :
    InvAt kgp { s with queued := Function.update s.queued e false, freed := freed } lk lists rest := by
  have hdead := hi.dead e (.inl hq)
  refine ⟨hi.ring, fun x hx => hi.links x fun h hxh => hlive h (hx h hxh), hi.mem, fun h st hk => ?_, fun h hd => ?_,
    hi.outside, hi.removed, ?_⟩
  · have hh := hi.head h st hk
    exact ⟨hh.range, hh.before, hh.same,
      fun hp hne => ⟨fun hl => (hh.other hp hne).1 (hlive h hl), (hh.other hp hne).2⟩⟩
  · by_cases he : h = e
    · exact he ▸ hdead
    · simp only [Function.update_of_ne he, hf h he] at hd
      exact hi.dead h hd
  · have hp := hi.phase
    change PhaseInv _ _ _ _ _ s.phase
    cases hphase : s.phase with
    | load i keep e' =>
      rw [hphase] at hp
      have hne : e' ≠ e := fun he => hok i keep (he ▸ hphase)
      exact ⟨hp.1, hp.2.1, (hf e' hne).trans hp.2.2.1, hp.2.2.2⟩
    | _ =>
      rw [hphase] at hp
      exact hp

/-- What was freed does not matter any more. -/
theorem overwrite {c : Content H} (hfreed : s.freed e = true) :
    InvAt kgp { s with
      kgi := Function.update s.kgi e c.kgi
      links := ⟨Function.update s.links.next (.head e) c.next, Function.update s.links.prev (.head e) c.prev⟩
      gone := Function.update s.gone e c.gone
      hasRemove := Function.update s.hasRemove e c.hasRemove
      hasFree := Function.update s.hasFree e c.hasFree } lk lists rest := by
  obtain ⟨ste, hste, hpe, hnee⟩ := hi.dead e (.inr hfreed)
  refine ⟨hi.ring, fun x hx => ?_, hi.mem, fun h st hk => ?_, hi.dead, fun h ho => ?_, hi.removed, ?_⟩
  · have hxe : x ≠ .head e := fun hxe => by
      rw [hx e hxe] at hfreed
      cases hfreed
    exact (Function.update_of_ne hxe ..).trans (hi.links x hx)
  · have hh := hi.head h st hk
    by_cases he : h = e
    · subst he
      obtain rfl : st = ste := Kind.added.inj (hk.symm.trans hste)
      have hdead : s.freed h ≠ false := fun hlive => nomatch hfreed.symm.trans hlive
      exact ⟨hh.range, fun hn => absurd hpe hn, fun _ hs => absurd hs hnee,
        fun _ _ => ⟨fun hlive => absurd hlive hdead, (hh.other hpe hnee).2⟩⟩
    · exact hh.congr Iff.rfl rfl (Function.update_of_ne he ..) (Function.update_of_ne he ..) rfl
        (Function.update_of_ne he ..) rfl rfl
  · have he : h ≠ e := fun he => by
      rw [he, hste] at ho
      cases ho
    exact (Function.update_of_ne he ..).trans (hi.outside h ho)
  · have hp := hi.phase
    change PhaseInv _ _ _ _ _ s.phase
    cases hphase : s.phase with
    | building => exact absurd (.inr hfreed) (hi.not_dead hphase)
    | _ =>
      rw [hphase] at hp
      exact hp

/-! ### Building the group -/

section

variable (hb : s.phase = .building) (hk : (s.kind h).isAdded = false)
include hb hk

/-- A head that is in no list is made ready. -/
theorem headInit {k : Kind} {tag : Word} {f g : Bool} (hka : k.isAdded = false) (ho : k = .outside → tag = 0) :
    InvAt kgp { headInit s h tag f g with kind := Function.update s.kind h k } (headInit s h tag f g).links lists
      rest := by
  have hlk := hi.links_eq hb
  have hne : ∀ {h' : H} {st}, s.kind h' = .added st → h' ≠ h := fun hst he => by
    rw [← he, hst] at hk
    cases hk
  have hadded : ∀ {h' : H} {st}, Function.update s.kind h k h' = .added st ↔ s.kind h' = .added st := fun {h' st} => by
    by_cases he : h' = h
    · rw [he, Function.update_self]
      exact iff_of_false (fun hc => by rw [hc] at hka; cases hka) fun hc => by rw [hc] at hk; cases hk
    · rw [Function.update_of_ne he]
  have hmem : ∀ i < KALEID_N_STATES, ∀ e ∈ lists i, e ≠ h := fun i hn e he => by
    obtain ⟨st, hst, -⟩ := (hi.mem e i hn).mp he
    exact hne hst
  refine ⟨fun i hn => ?_, fun _ _ => rfl, fun e i hn => ?_, fun e st he => ?_, fun e hd => ?_,
    fun e he => ?_, fun e he => ?_, ?_⟩
  · refine (hlk ▸ hi.ring i hn).congr ⟨rfl, rfl⟩ fun e he => ?_
    have hl : Link.head e ≠ .head h := fun hl => hmem i hn e he (Link.head.inj hl)
    exact ⟨Function.update_of_ne hl .., Function.update_of_ne hl ..⟩
  · rw [hi.mem e i hn]
    exact exists_congr fun st => and_congr_left fun _ => hadded.symm
  · have hst := hadded.mp he
    obtain ⟨htag, hgone, hhas, hrem⟩ := (hi.head e st hst).before (not_passed hb)
    refine .building hb (hi.head e st hst).range ⟨(Function.update_of_ne (hne hst) ..).trans htag,
      (Function.update_of_ne (hne hst) ..).trans hgone, ?_, hrem⟩
    change Function.update s.hasRemove h f e = Function.update s.removes h f e
    rw [Function.update_of_ne (hne hst), Function.update_of_ne (hne hst), hhas]
  · exact absurd hd (hi.not_dead hb)
  · change Function.update s.kgi h tag e = 0
    change Function.update s.kind h k e = .outside at he
    by_cases heh : e = h
    · rw [heh, Function.update_self] at he
      rw [heh, Function.update_self]
      exact ho he
    · rw [Function.update_of_ne heh] at he
      rw [Function.update_of_ne heh]
      exact hi.outside e he
  · change (Function.update s.kind h k e).isAdded = false at he
    by_cases heh : e = h
    · exact heh ▸ hi.removed h hk
    · rw [Function.update_of_ne heh] at he
      exact hi.removed e he
  · change PhaseInv _ _ _ _ _ s.phase
    rw [hb]
    rfl

omit hb in
/-- The lists after a head was added to one of them. -/
theorem ring_add (hlt : i < KALEID_N_STATES) : ∀ j < KALEID_N_STATES,
    Ring Link.head (.list j) (lk.add (.head h) (.list i)) (Function.update lists i (h :: lists i) j) := by
  have hout : ∀ j < KALEID_N_STATES, h ∉ lists j := fun j hj hm => by
    obtain ⟨st, hst, -⟩ := (hi.mem h j hj).mp hm
    rw [hst] at hk
    cases hk
  intro j hj
  by_cases hji : j = i
  · subst hji
    rw [Function.update_self]
    exact (hi.ring j hj).add (fun a b => Link.head.inj) (fun _ => nofun) (hout j hj)
  · rw [Function.update_of_ne hji]
    refine (hi.ring j hj).congr ?_ fun e he => ?_
    · exact (hi.ring i hlt).add_frame (fun hl => hji (Link.list.inj hl)) nofun fun _ _ => nofun
    · refine (hi.ring i hlt).add_frame nofun (fun hl => ?_) fun a ha hl => ?_
      · exact hout j hj (Link.head.inj hl ▸ he)
      · -- a head is on one list
        obtain rfl := Link.head.inj hl
        obtain ⟨st, hst, hsj⟩ := (hi.mem e j hj).mp he
        obtain ⟨st', hst', hsi⟩ := (hi.mem e i hlt).mp ha
        rw [hst] at hst'
        exact hji (hsj.symm.trans (Kind.added.inj hst' ▸ hsi))

omit hb in
/-- What is in the lists then. -/
theorem mem_add (e : H) (j : ℕ) (hj : j < KALEID_N_STATES) :
    e ∈ Function.update lists state.toNat (h :: lists state.toNat) j ↔
      ∃ st, Function.update s.kind h (.added state) e = .added st ∧ st.toNat = j := by
  by_cases heh : e = h
  · subst heh
    rw [Function.update_self]
    by_cases hjs : j = state.toNat
    · subst hjs
      rw [Function.update_self]
      exact iff_of_true List.mem_cons_self ⟨state, rfl, rfl⟩
    · rw [Function.update_of_ne hjs]
      refine iff_of_false (fun hm => ?_) fun ⟨st, hst, hsj⟩ => hjs ?_
      · obtain ⟨st, hst, -⟩ := (hi.mem e j hj).mp hm
        rw [hst] at hk
        cases hk
      · rw [← hsj, Kind.added.inj hst]
  · rw [Function.update_of_ne heh, ← hi.mem e j hj]
    by_cases hjs : j = state.toNat
    · subst hjs
      rw [Function.update_self, List.mem_cons]
      exact or_iff_right heh
    · rw [Function.update_of_ne hjs]

/-- **A head is added** to the list of its state. -/
theorem headAdd (hs : state &&& ~~~KALEID_MASK = 0) (htag : s.kgi h = kgp.1 ||| state) (hgone : s.gone h = false)
    (hhas : s.hasRemove h = s.removes h) :
    InvAt kgp { s with
        links := s.links.add (.head h) (.list state.toNat)
        kind := Function.update s.kind h (.added state) } (s.links.add (.head h) (.list state.toNat))
      (Function.update lists state.toNat (h :: lists state.toNat)) rest := by
  obtain rfl := hi.links_eq hb
  have hself : Function.update s.kind h (.added state) h = .added state := Function.update_self ..
  have hother : ∀ e, e ≠ h → Function.update s.kind h (.added state) e = s.kind e :=
    fun e he => Function.update_of_ne he ..
  refine ⟨hi.ring_add hk (toNat_lt_iff.mpr hs), fun _ _ => rfl, hi.mem_add hk, fun e st he => ?_, fun e hd => ?_,
    fun e he => ?_, fun e he => ?_, ?_⟩
  · change Function.update s.kind h (.added state) e = .added st at he
    by_cases heh : e = h
    · subst heh
      obtain rfl := Kind.added.inj (hself.symm.trans he)
      exact .building hb hs ⟨htag, hgone, hhas, hi.removed e hk⟩
    · rw [hother e heh] at he
      exact .building hb (hi.head e st he).range ((hi.head e st he).before (not_passed hb))
  · exact absurd hd (hi.not_dead hb)
  · change Function.update s.kind h (.added state) e = .outside at he
    by_cases heh : e = h
    · subst heh
      cases hself.symm.trans he
    · rw [hother e heh] at he
      exact hi.outside e he
  · change (Function.update s.kind h (.added state) e).isAdded = false at he
    by_cases heh : e = h
    · subst heh
      rw [hself] at he
      cases he
    · rw [hother e heh] at he
      exact hi.removed e he
  · change PhaseInv _ _ _ _ _ s.phase
    rw [hb]
    rfl

end

end InvAt

/-! ### All runs -/

theorem inv_init (h : Init kgp s) : Inv kgp s := by
  have hk : ∀ {e : H} {st}, s.kind e ≠ .added st := fun he => by
    rw [h.kind] at he
    cases he
  refine ⟨s.links, fun _ => [], [], fun i hn => .nil (h.links i hn).1 (h.links i hn).2, fun _ _ => rfl,
    fun e i _ => ?_, fun e st he => absurd he hk, fun e hd => ?_, fun e he => ?_, fun e _ => h.removed e, ?_⟩
  · exact iff_of_false List.not_mem_nil fun ⟨st, hst, _⟩ => hk hst
  · rw [h.queued, h.freed] at hd
    simp at hd
  · rw [h.kind] at he
    cases he
  · rw [h.phase]
    rfl

variable [DecidableEq H]

namespace Inv

theorem initPerm {f g : Bool} (hi : Inv kgp s) (hn : next kgp s (.initPerm h f g) = some s') : Inv kgp s' := by
  rw [next] at hn
  split at hn
  · next hg =>
    cases hn
    obtain ⟨lk, lists, rest, hi⟩ := hi
    exact ⟨_, lists, rest, hi.headInit hg.1 hg.2 rfl fun _ => rfl⟩
  · cases hn

theorem initState {p : Word} {f g : Bool} {ret : Int} (hi : Inv kgp s)
    (hn : next kgp s (.initState h p state f g ret) = some s') : Inv kgp s' := by
  rw [next] at hn
  split at hn
  · next hg =>
    obtain ⟨hb, hk, hp⟩ := hg
    obtain ⟨tag, htag, hn⟩ := Option.map_eq_some_iff.mp hn
    obtain ⟨lk, lists, rest, hi⟩ := hi
    subst hn
    rw [Kaleidoscope.headAdd]
    split
    · split
      · next hp0 =>
        obtain rfl := hp.resolve_right hp0
        obtain ⟨hs, rfl⟩ := of_forstate htag
        have hi' : InvAt kgp { headInit s h (kgp.1 ||| state) f g with kind := Function.update s.kind h .none }
            _ lists rest :=
          hi.headInit hb hk rfl nofun
        have hhas : Function.update s.hasRemove h f h = Function.update s.removes h f h := by
          rw [Function.update_self, Function.update_self]
        have hadd := hi'.headAdd (h := h) hb (by simp [Kind.isAdded]) hs (Function.update_self ..)
          (Function.update_self ..) hhas
        simp only [Function.update_idem] at hadd
        exact ⟨_, _, rest, hadd⟩
      · next hp0 =>
        refine ⟨_, lists, rest, hi.headInit hb hk rfl fun _ => ?_⟩
        rw [forstate, if_pos (not_not.mp hp0)] at htag
        split at htag
        · cases htag
        · exact (Option.some.inj htag).symm
    · exact ⟨_, lists, rest, hi.headInit hb hk rfl nofun⟩
  · cases hn

theorem setState (hi : Inv kgp s) (hn : next kgp s (.setState state) = some s') : Inv kgp s' := by
  rw [next] at hn
  split at hn
  · next hb =>
    split at hn
    · cases hn
    · cases hn
      obtain ⟨lk, lists, rest, hi⟩ := hi
      refine ⟨lk, lists, rest, hi.ring, hi.links, hi.mem, fun h st hk => ?_, fun h hd => ?_, hi.outside, hi.removed, ?_⟩
      · exact .building hb (hi.head h st hk).range ((hi.head h st hk).before (not_passed hb))
      · obtain ⟨st, -, hp, -⟩ := hi.dead h hd
        exact absurd hp (not_passed hb)
      · have hp := hi.phase
        change PhaseInv _ _ _ _ _ s.phase
        rw [hb] at hp ⊢
        exact hp
  · cases hn

/-- The commit begins. -/
theorem commit (hi : Inv kgp s) (hn : next kgp s .commit = some s') : Inv kgp s' := by
  rw [next] at hn
  split at hn
  · next hb =>
    cases hn
    obtain ⟨lk, lists, rest, hi⟩ := hi
    have h0 : 0 < KALEID_N_STATES := by decide
    have hfirst : s.links.next (.list 0) = first Link.head (.list 0) (lists 0) :=
      (hi.links (.list 0) nofun).trans (hi.ring 0 h0).next_head
    refine ⟨lk, lists, lists 0, hi.ring, hi.links, hi.mem, fun h st hk => ?_, fun h hd => ?_, hi.outside, hi.removed,
      h0, rfl, hfirst, [], rfl⟩
    rotate_left
    · obtain ⟨st, -, hp, -⟩ := hi.dead h hd
      exact absurd hp (not_passed hb)
    have hnot : ¬ Passed { s with phase := commitList kgp s 0 } (lists 0) h st := fun hp =>
      hp.elim (Nat.not_lt_zero _) fun hp => hp.2 ((hi.mem h 0 h0).mpr ⟨st, hk, hp.1⟩)
    exact ⟨(hi.head h st hk).range, fun _ => (hi.head h st hk).before (not_passed hb), fun hp => absurd hp hnot,
      fun hp => absurd hp hnot⟩
  · cases hn

theorem step (hi : Inv kgp s) (hn : commitStep kgp s = some s') : Inv kgp s' := by
  obtain ⟨lk, lists, rest, hi⟩ := hi
  have hc : s.phase.commits = true := by
    cases hphase : s.phase with
    | commit | load => rfl
    | _ =>
      rw [commitStep, hphase] at hn
      cases hn
  obtain ⟨s'', hs, hi'⟩ := hi.commitStep hc
  exact Option.some.inj (hn.symm.trans hs) ▸ hi'

/-- The callback of a head whose link was loaded. -/
theorem callback (hi : Inv kgp s) (hok : InTime (.callback h) s) (hn : callback s h = some s') : Inv kgp s' := by
  obtain ⟨lk, lists, rest, hi⟩ := hi
  rw [Kaleidoscope.callback] at hn
  split at hn
  · next hq =>
    cases hn
    refine ⟨lk, lists, rest, hi.callback hq hok (fun e he => ?_) fun e hl => ?_⟩
    · split
      · exact Function.update_of_ne he ..
      · rfl
    · split at hl
      · by_cases he : e = h
        · rw [he, Function.update_self] at hl
          cases hl
        · rwa [Function.update_of_ne he] at hl
      · exact hl
  · cases hn

theorem overwrite {c : Content H} (hi : Inv kgp s) (hn : overwrite s h c = some s') : Inv kgp s' := by
  obtain ⟨lk, lists, rest, hi⟩ := hi
  rw [Kaleidoscope.overwrite] at hn
  split at hn
  · next hf =>
    cases hn
    exact ⟨lk, lists, rest, hi.overwrite hf⟩
  · cases hn

/-- The group is gone, and its heads do not depend on it. -/
theorem reuse {mem : Word → Word} (hi : Inv kgp s) (hn : next kgp s (.reuse mem) = some s') : Inv kgp s' := by
  obtain ⟨lk, lists, rest, hi⟩ := hi
  have hlater : ∀ c, s.phase = .committed c ∨ s.phase = .later c →
      InvAt kgp { s with mem := mem, phase := .later c } lk lists rest :=
    fun c hc => by
      have hp : ∀ h st, Passed { s with mem := mem, phase := .later c } rest h st ↔ Passed s rest h st := fun h st => by
        rw [Passed, Passed]
        rcases hc with hc | hc <;> rw [hc]
      have hcur : St.current kgp { s with mem := mem, phase := .later c } = s.current kgp := by
        rw [St.current, St.current]
        rcases hc with hc | hc <;> rw [hc]
      exact ⟨hi.ring, hi.links, hi.mem,
        fun h st hk => (hi.head h st hk).congr (hp h st) hcur rfl rfl rfl rfl rfl rfl,
        fun h hd => (hi.dead h hd).congr (fun st _ => (hp h st).mpr) hcur rfl, hi.outside, hi.removed, trivial⟩
  rw [next] at hn
  split at hn
  · next c hc =>
    cases hn
    exact ⟨lk, lists, rest, hlater c (.inl hc)⟩
  · next c hc =>
    cases hn
    exact ⟨lk, lists, rest, hlater c (.inr hc)⟩
  · cases hn

theorem next {a : Act H} (hi : Inv kgp s) (hok : InTime a s) (hn : next kgp s a = some s') : Inv kgp s' := by
  cases a with
  | initPerm h f g => exact hi.initPerm hn
  | initState h p st f g ret => exact hi.initState hn
  | setState st => exact hi.setState hn
  | commit => exact hi.commit hn
  | step => exact hi.step hn
  | callback h => exact hi.callback hok hn
  | overwrite h c => exact hi.overwrite hn
  | reuse mem => exact hi.reuse hn

theorem selects (hi : Inv kgp s) : Selects kgp s := by
  obtain ⟨lk, lists, rest, hi⟩ := hi
  refine ⟨fun h st hk hlive hl => ?_, fun h ho => exists_zero (hi.outside h ho), fun h hr => ?_, fun c hc h st hk => ?_,
    fun hc => ?_, fun hb st hst => ⟨?_, fun h f g ret hk => ?_⟩⟩
  · have hh := hi.head h st hk
    have hcur := hi.current_eq hl
    by_cases hp : Passed s rest h st
    · by_cases hs : st = s.current kgp
      · exact iff_of_true (exists_zero (hh.same hp hs).1) (hs.trans hcur)
      · exact exists_tag hh.range ((hh.other hp hs).1 hlive)
    · exact exists_tag hh.range (hh.before hp).1
  · cases hk : s.kind h with
    | none | outside =>
      have h0 := hi.removed h (by rw [hk]; rfl)
      omega
    | added st =>
      have hh := hi.head h st hk
      have hp : Passed s rest h st := by
        by_contra hp
        have := (hh.before hp).2.2.2
        omega
      have hne : st ≠ s.current kgp := fun hs => by
        have := (hh.same hp hs).2
        omega
      have hrem := (hh.other hp hne).2
      refine ⟨?_, fun hb => not_passed hb hp, st, rfl, hne⟩
      split at hrem <;> omega
  · have hh := hi.head h st hk
    have hp : Passed s rest h st := by
      rw [Passed]
      rcases hc with hc | hc <;> rw [hc] <;> trivial
    have hcur : s.current kgp = c := by
      rw [St.current]
      rcases hc with hc | hc <;> rw [hc]
    by_cases hs : st = c
    · obtain ⟨hz, h0⟩ := hh.same hp (hs.trans hcur.symm)
      refine ⟨fun _ => exists_zero hz, ?_⟩
      rw [h0, if_neg fun hn => hn.1 hs]
    · have hrem := (hh.other hp fun he => hs (he.trans hcur)).2
      refine ⟨fun he => absurd he hs, ?_⟩
      rw [hrem]
      simp [hs]
  · obtain ⟨s', hs, -⟩ := hi.commitStep hc
    rw [hs]
    rfl
  · rw [Kaleidoscope.next, if_pos hb, if_neg (not_not.mpr (toNat_lt_iff.mp hst))]
    rfl
  · rw [Kaleidoscope.next, if_pos ⟨hb, hk, .inl rfl⟩, forstate_eq (toNat_lt_iff.mp hst)]
    rfl

end Inv

/-- **A kaleidoscope group selects one state**, in every run in which no callback of a head runs before the commit
has loaded the link of that head. -/
theorem selects_one_state (h : (sys (H := H) kgp).Reach InTime s) : Selects kgp s :=
  (h.inv (I := Inv kgp) (fun _ => inv_init) fun _ _ _ hi hok hn => hi.next hok hn).selects

/-- A group at 64, and nothing built. -/
def groupAt64 : Group := ⟨64, by decide, by decide⟩

def empty : St ℕ where
  mem _ := 0
  links := ⟨id, id⟩
  kgi _ := 0
  gone _ := false
  hasRemove _ := false
  hasFree _ := false
  queued _ := false
  freed _ := false
  phase := .building
  kind _ := .none
  removes _ := false
  removed _ := 0

theorem empty_init : Init groupAt64 empty :=
  ⟨rfl, fun _ _ => ⟨rfl, rfl⟩, rfl, fun _ => rfl, fun _ => rfl, fun _ => rfl, fun _ => rfl⟩

/-- What `kaleidoscope_head_init_perm` leaves in the memory of head 1. -/
def fresh : Content ℕ := ⟨0, .head 1, .head 1, false, true, true⟩

/-- Heads 0 and 1 in state 1 and head 2 in state 2, and the group begins to commit to state 2. It comes to head 1. -/
def commitThree : List (Act ℕ) :=
  [.initState 0 64 1 true true 0, .initState 1 64 1 true true 0, .initState 2 64 2 true true 0, .setState 1,
    .setState 2, .commit, .step, .step]

/-- Head 1 is freed, and its memory used again, when its link was loaded. -/
theorem selects_one_state_run : ∃ s : St ℕ, (sys groupAt64).Reach InTime s ∧ s.phase = .committed 2 ∧
    s.removed 1 = 1 ∧ s.kgi 1 = 0 ∧ Selects groupAt64 s := by
  have hrun : ((sys groupAt64).run InTime (commitThree ++ [.step, .callback 1, .overwrite 1 fresh] ++
      List.replicate 11 .step) empty).map (fun s => (s.phase, s.removed 1, s.kgi 1)) =
      some (.committed 2, 1, 0) := by decide +kernel
  obtain ⟨s, hs, hd⟩ := Option.map_eq_some_iff.mp hrun
  simp only [Prod.mk.injEq] at hd
  have hreach := Sys.run_reach (.init empty_init) hs
  exact ⟨s, hreach, hd.1, hd.2.1, hd.2.2, selects_one_state hreach⟩

/-- Head 1 is freed, and its memory used again, before its link is loaded: the commit removes what is there now. -/
theorem removes_twice : ¬ ∀ s : St ℕ, (sys groupAt64).Reach Sys.always s → Selects groupAt64 s := by
  have hrun : ((sys groupAt64).run Sys.always (commitThree ++ [.callback 1, .overwrite 1 fresh, .step, .step])
      empty).map (fun s => s.removed 1) = some 2 := by decide +kernel
  obtain ⟨s, hs, hd⟩ := Option.map_eq_some_iff.mp hrun
  intro hall
  have hone := ((hall s (Sys.run_reach (.init empty_init) hs)).removed 1 (by omega)).1
  omega

end Kaleidoscope
end Perfbook
