/-
# Which group a head belongs to

The invariant of runs in which each group is built, and flipped or backed
out, by the thread that initialised it, and a head is claimed for a group
only when the group it was in before is finished (`Scoped`): a head carries
the tag of its group, until the walk of that group clears it, and from a
head on a list of a group that is not finished yet the list goes on to
another head of that list or ends (`Inv.links`), so the walk over a group
meets heads of the group only.

Key definitions: `Scoped`, `InList`, `LocInv`, `Inv`.
Key theorems: `LocInv.frame`, `inv_stepThread`, `inv_act`.
-/
import Perfbook.Existence.Lock

namespace Perfbook
namespace Existence

open Conc

namespace Phase

/-- The walk over the group is through. -/
def isOver : Phase → Bool
  | finished _ => true
  | _ => false

/-- The group's state was set to 1. -/
def flipped : Phase → Bool
  | running .flip | finished .flip => true
  | _ => false

/-- The walk clears, or has cleared, the heads on this side. -/
def clears (d : Side) : Phase → Bool
  | running k | finished k => k.clearSide = d
  | _ => false

end Phase

namespace Switch

variable {τ H : Type}

/-- A group is built and walked over, once, by the thread that initialised
it, and a head is claimed only when its last group is finished. -/
def Scoped (a : Act τ H) (s : St τ H) : Prop :=
  match a with
  | .initIncoming t _ g | .setOutgoing t _ g | .walk _ t g =>
    s.owner g = some t ∧ s.phase g = .building
  | .step t =>
    match s.loc t with
    | .setTag h _ => ∀ m ∈ s.member h, (s.phase m.1).isOver = true
    | _ => True
  | _ => True

/-- No group and no head is initialised, and no call runs. -/
structure Init (s : St τ H) : Prop where
  loc : ∀ t, s.loc t = .idle
  lock : ∀ h, s.lock h = none
  answer : ∀ t, s.answer t = none
  known : ∀ h, s.known h = false
  member : ∀ h, s.member h = none
  phase : ∀ g, s.phase g = .fresh

def sys (τ H : Type) [DecidableEq τ] [DecidableEq H] : Sys (St τ H) (Act τ H) := ⟨Init, next⟩

/-! ### The invariant -/

/-- The link is the list `d` of `g`, or on it. -/
def InList (s : St τ H) (g : Group) (d : Side) : Link H → Prop
  | .list g' d' => g' = g ∧ d' = d
  | .head h => s.member h = some (g, d) ∧ s.placed h = true

/-- Thread `t` builds `g`. -/
def Builds (t : τ) (s : St τ H) (g : Group) : Prop :=
  s.owner g = some t ∧ s.phase g = .building

/-- Thread `t` walks over `g`. -/
def Walks (t : τ) (s : St τ H) (k : Kind) (g : Group) : Prop :=
  s.owner g = some t ∧ s.phase g = .running k

/-- `v` is a tag of `g` that `h` carried, and carries still if `g` is being built. -/
def Carried (s : St τ H) (h : H) (v : Word) : Prop :=
  ∃ g d, v = tag g d ∧ s.phase g ≠ .fresh ∧ (s.phase g = .building → s.egi h = v)

/-- What holds of a thread `t` at a place. -/
def LocInv (t : τ) (s : St τ H) : Loc H → Prop
  | .idle => True
  | .ehAdd h g => Builds t s g ∧ s.member h = some (g, .incoming)
  | .add d h g pc => Builds t s g ∧ s.member h = some (g, d) ∧
    match pc with
    | .setNext n => InList s g d n
    | .setOwnPrev | .setFirst => s.placed h = true
    | _ => True
  | .lock h g | .gone h g | .egi h g => Builds t s g ∧ s.known h = true
  | .bugTag h g | .setTag h g => Builds t s g ∧ s.known h = true ∧ s.egi h = 0
  | .unlock _ _ => True
  | .bug _ g | .setState g => Builds t s g
  | .clearNext k g l | .clear k g l => Walks t s k g ∧ InList s g k.clearSide l
  | .cleanNext k g l | .cleanLock k g l => Walks t s k g ∧ InList s g k.cleanSide l
  | .cleanBug k g h | .cleanGone k g h | .cleanUnlock k g h =>
    Walks t s k g ∧ InList s g k.cleanSide (.head h)
  | .loadEgi h => s.known h = true
  | .loadState h v => s.known h = true ∧ Carried s h v

structure Inv (s : St τ H) : Prop where
  lock : LockInv s
  unknown : ∀ h, s.known h = false → s.lock h = none ∧ s.member h = none
  /-- `eg_state` is 1 from the flip on -/
  state : ∀ g, s.phase g ≠ .fresh → s.egState g.1 = if (s.phase g).flipped then 1 else 0
  plain : ∀ h, s.known h = true → s.member h = none → s.egi h = 0
  /-- a head carries the tag of its group, unless the walk cleared it -/
  member : ∀ h g d, s.member h = some (g, d) → s.phase g ≠ .fresh ∧
    (s.egi h = tag g d ∨ s.egi h = 0 ∧ (s.phase g).clears d = true)
  /-- a list of a group that is not finished stays among its heads -/
  links : ∀ g d l, s.phase g ≠ .fresh → (s.phase g).isOver = false → InList s g d l →
    InList s g d (s.next l)
  loc : ∀ t, LocInv t s (s.loc t)

/-! ### What the steps of others leave as it is -/

variable {s s' : St τ H} {t u : τ} {g : Group} {d : Side} {h : H} {l : Loc H} {v : Word}

/-- What thread `t`, at `l`, relies on is the same in `s'`. -/
structure Frame (t : τ) (l : Loc H) (s s' : St τ H) : Prop where
  own : ∀ g, s.owner g = some t → s.phase g ≠ .fresh →
    s'.owner g = some t ∧ s'.phase g = s.phase g
  member : ∀ h g d, s.owner g = some t → (s.phase g).isOver = false → s.member h = some (g, d) →
    s'.member h = some (g, d) ∧ (s.placed h = true → s'.placed h = true)
  known : ∀ h, s.known h = true → s'.known h = true
  egi : ∀ h, l.holds = some h → s.egi h = 0 → s'.egi h = 0
  carried : ∀ h v, s.known h = true → Carried s h v → Carried s' h v

theorem Builds.frame (hf : Frame t l s s') (hb : Builds t s g) : Builds t s' g := by
  have := hf.own g hb.1 (by rw [hb.2]; nofun)
  exact ⟨this.1, this.2.trans hb.2⟩

theorem Walks.frame {k : Kind} (hf : Frame t l s s') (hw : Walks t s k g) : Walks t s' k g := by
  have := hf.own g hw.1 (by rw [hw.2]; nofun)
  exact ⟨this.1, this.2.trans hw.2⟩

theorem Builds.open_ (hb : Builds t s g) : (s.phase g).isOver = false := by rw [hb.2]; rfl

theorem Walks.open_ {k : Kind} (hw : Walks t s k g) : (s.phase g).isOver = false := by rw [hw.2]; rfl

theorem InList.frame {x : Link H} (hf : Frame t l s s') (ho : s.owner g = some t)
    (hp : (s.phase g).isOver = false) (hx : InList s g d x) : InList s' g d x := by
  cases x with
  | list => exact hx
  | head h =>
    have := hf.member h g d ho hp hx.1
    exact ⟨this.1, this.2 hx.2⟩

/-- **A thread's assertion outlives the steps of others.** -/
theorem LocInv.frame (hf : Frame t l s s') (hi : LocInv t s l) : LocInv t s' l := by
  cases l with
  | idle | unlock => trivial
  | ehAdd h g => exact ⟨hi.1.frame hf, (hf.member h g _ hi.1.1 hi.1.open_ hi.2).1⟩
  | add d h g pc =>
    obtain ⟨hb, hm, hpc⟩ := hi
    have hm' := hf.member h g d hb.1 hb.open_ hm
    refine ⟨hb.frame hf, hm'.1, ?_⟩
    cases pc with
    | setNext n => exact InList.frame hf hb.1 hb.open_ hpc
    | setOwnPrev | setFirst => exact hm'.2 hpc
    | _ => trivial
  | lock h g | gone h g | egi h g => exact ⟨hi.1.frame hf, hf.known h hi.2⟩
  | bugTag h g | setTag h g =>
    exact ⟨hi.1.frame hf, hf.known h hi.2.1, hf.egi h rfl hi.2.2⟩
  | bug k g | setState g => exact Builds.frame hf hi
  | clearNext k g x | clear k g x | cleanNext k g x | cleanLock k g x | cleanBug k g x
  | cleanGone k g x | cleanUnlock k g x =>
    exact ⟨hi.1.frame hf, hi.2.frame hf hi.1.1 hi.1.open_⟩
  | loadEgi h => exact hf.known h hi
  | loadState h v => exact ⟨hf.known h hi.1, hf.carried h v hi.1 hi.2⟩

/-- The fields that the invariant reads, but for the places and the locks, are the same. -/
structure Same (s s' : St τ H) : Prop where
  egState : s'.egState = s.egState
  egi : s'.egi = s.egi
  next : s'.next = s.next
  member : s'.member = s.member
  placed : s'.placed = s.placed
  phase : s'.phase = s.phase
  owner : s'.owner = s.owner
  known : s'.known = s.known

theorem Same.frame (h : Same s s') (t : τ) (l : Loc H) : Frame t l s s' where
  own g ho _ := by
    rw [h.owner, h.phase]
    exact ⟨ho, rfl⟩
  member a g d _ _ hm := by
    rw [h.member, h.placed]
    exact ⟨hm, id⟩
  known a ha := h.known ▸ ha
  egi a _ ha := h.egi ▸ ha
  carried a v _ := by
    rintro ⟨g, d, hv, hp, he⟩
    refine ⟨g, d, hv, ?_⟩
    rw [h.phase, h.egi]
    exact ⟨hp, he⟩

theorem InList.congr {x : Link H} (hm : s'.member = s.member) (hp : s'.placed = s.placed) :
    InList s' g d x ↔ InList s g d x := by
  cases x with
  | list => exact Iff.rfl
  | head h => rw [InList, InList, hm, hp]

theorem Inv.known_of_member (hi : Inv s) {m : Group × Side} (hm : s.member h = some m) :
    s.known h = true := by
  by_contra hk
  rw [(hi.unknown h (Bool.eq_false_iff.mpr hk)).2] at hm
  cases hm

/-- A step of `t` at `g`, which it owns, is of no concern to the others. -/
theorem frame_of_owner (ho : s.owner g = some t) (hu : u ≠ t)
    (hphase : ∀ g', g' ≠ g → s'.phase g' = s.phase g') (hown : s'.owner = s.owner)
    (hm : s'.member = s.member) (hp : ∀ h, s.placed h = true → s'.placed h = true)
    (hk : s'.known = s.known) (he : ∀ h, s.egi h = 0 → s'.egi h = 0)
    (hc : ∀ h v, Carried s h v → Carried s' h v) : Frame u (s.loc u) s s' where
  own g' ho' _ := by
    have hne : g' ≠ g := by
      rintro rfl
      exact hu (Option.some.inj (ho'.symm.trans ho))
    rw [hown]
    exact ⟨ho', hphase g' hne⟩
  member h g' d _ _ h' := by
    rw [hm]
    exact ⟨h', hp h⟩
  known h hh := hk ▸ hh
  egi h _ := he h
  carried h v _ := hc h v

variable [DecidableEq τ]

/-- The assertions after a step of `t`, from those before: `t` is at `l`,
and the others rely on what did not change. -/
theorem locs_of_frame (hi : ∀ u, LocInv u s (s.loc u)) (hloc : s'.loc = Function.update s.loc t l)
    (hl : LocInv t s' l) (hf : ∀ u, u ≠ t → Frame u (s.loc u) s s') (u : τ) :
    LocInv u s' (s'.loc u) := by
  rw [hloc]
  by_cases hu : u = t
  · subst hu
    rw [Function.update_self]
    exact hl
  · rw [Function.update_of_ne hu]
    exact (hi u).frame (hf u hu)

/-- A step that changes only where `t` is, and fields of no interest. -/
theorem Inv.keep (hi : Inv s) (hs : Same s s') (hk : LockInv s')
    (hlock : ∀ h, s.known h = false → s'.lock h = none)
    (hloc : s'.loc = Function.update s.loc t l) (hl : LocInv t s l) : Inv s' where
  lock := hk
  unknown h hh := by
    rw [hs.known] at hh
    rw [hs.member]
    exact ⟨hlock h hh, (hi.unknown h hh).2⟩
  state g := by
    rw [hs.phase, hs.egState]
    exact hi.state g
  plain h := by
    rw [hs.known, hs.member, hs.egi]
    exact hi.plain h
  member h g d := by
    rw [hs.member, hs.phase, hs.egi]
    exact hi.member h g d
  links g d x := by
    rw [hs.phase, hs.next, InList.congr hs.member hs.placed, InList.congr hs.member hs.placed]
    exact hi.links g d x
  loc := locs_of_frame hi.loc hloc (hl.frame (hs.frame t l)) fun u _ => hs.frame u _

/-! ### Steps that change a list, a head or a group -/

/-- The walk over `g` goes into another phase. -/
theorem inv_phase {p : Phase} (hi : Inv s) (ho : s.owner g = some t) (hf : s.phase g ≠ .fresh)
    (hopen : (s.phase g).isOver = false) (hp : p ≠ .building)
    (hclears : ∀ d, (s.phase g).clears d = true → p.clears d = true)
    (hstate : s'.egState g.1 = if p.flipped then 1 else 0)
    (hother : ∀ g' : Group, g' ≠ g → s'.egState g'.1 = s.egState g'.1)
    (hegi : s'.egi = s.egi) (hnext : s'.next = s.next) (hmem : s'.member = s.member)
    (hplaced : s'.placed = s.placed) (hphase : s'.phase = Function.update s.phase g p)
    (hown : s'.owner = s.owner) (hk : s'.known = s.known) (hlk : s'.lock = s.lock)
    (hloc : s'.loc = Function.update s.loc t l) (hh : l.holds = (s.loc t).holds)
    (hp' : p ≠ .fresh) (hl : LocInv t s' l) : Inv s' := by
  have hof : ∀ g', g' ≠ g → s'.phase g' = s.phase g' := fun g' hg' => by
    rw [hphase, Function.update_of_ne hg']
  have hat : s'.phase g = p := by rw [hphase, Function.update_self]
  constructor
  case lock => exact hi.lock.keep hlk hloc hh
  case unknown =>
    rw [hk, hlk, hmem]
    exact hi.unknown
  case state =>
    intro g' hg'
    by_cases hne : g' = g
    · rw [hne, hat]
      exact hstate
    · rw [hof g' hne] at hg' ⊢
      rw [hother g' hne]
      exact hi.state g' hg'
  case plain =>
    rw [hk, hmem, hegi]
    exact hi.plain
  case member =>
    intro h g' d hm
    rw [hmem] at hm
    obtain ⟨h1, h2⟩ := hi.member h g' d hm
    rw [hegi]
    by_cases hne : g' = g
    · subst hne
      rw [hat]
      exact ⟨hp', h2.imp_right fun h2 => ⟨h2.1, hclears d h2.2⟩⟩
    · rw [hof g' hne]
      exact ⟨h1, h2⟩
  case links =>
    intro g' d x h1 h2 hx
    rw [InList.congr hmem hplaced] at hx ⊢
    rw [hnext]
    by_cases hne : g' = g
    · subst hne
      exact hi.links g' d x hf hopen hx
    · rw [hof g' hne] at h1 h2
      exact hi.links g' d x h1 h2 hx
  case loc =>
    refine locs_of_frame hi.loc hloc hl fun u hu => frame_of_owner ho hu hof hown hmem
      (fun h hh => hplaced ▸ hh) hk (fun h hh => hegi ▸ hh) ?_
    rintro h v ⟨g', d, rfl, h1, h2⟩
    refine ⟨g', d, rfl, ?_⟩
    rw [hegi]
    by_cases hne : g' = g
    · subst hne
      rw [hat]
      exact ⟨hp', fun hb => absurd hb hp⟩
    · rw [hof g' hne]
      exact ⟨h1, h2⟩

variable [DecidableEq H]

/-- `head->next = newp`, the last store of an addition. -/
theorem inv_setFirst (hi : Inv s) (hlist : InList s g d (.head h)) (hloc : LocInv t s l)
    (hk : l.holds = (s.loc t).holds) : Inv ((s.setNext (.list g d) (.head h)).goto t l) where
  lock := hi.lock.keep rfl rfl hk
  unknown := hi.unknown
  state := hi.state
  plain := hi.plain
  member := hi.member
  links g' d' x hp ho hx := by
    have hx' : InList s g' d' x := (InList.congr rfl rfl).mp hx
    refine (InList.congr rfl rfl).mpr ?_
    by_cases hxl : x = .list g d
    · subst hxl
      obtain ⟨rfl, rfl⟩ := hx'
      have hnext : ((s.setNext (.list g d) (.head h)).goto t l).next (.list g d) = .head h :=
        Function.update_self ..
      rw [hnext]
      exact hlist
    · have hnext : ((s.setNext (.list g d) (.head h)).goto t l).next x = s.next x :=
        Function.update_of_ne hxl _ _
      rw [hnext]
      exact hi.links g' d' x hp ho hx'
  loc := by
    have hf : ∀ u m, Frame u m s ((s.setNext (.list g d) (.head h)).goto t l) := fun u m =>
      ⟨fun g ho _ => ⟨ho, rfl⟩, fun _ _ _ _ _ hm => ⟨hm, id⟩, fun _ hh => hh, fun _ _ he => he,
        fun _ _ _ hc => hc⟩
    exact locs_of_frame hi.loc rfl (hloc.frame (hf t l)) fun u _ => hf u _

/-- `newp->next = head->next`: from now on `h` is on a list of `g`. -/
theorem inv_place {n : Link H} (hi : Inv s) (hl : s.loc t = .add d h g (.setNext n)) :
    Inv ((s.place h n).goto t (.add d h g .setOwnPrev)) := by
  have hadd := hi.loc t
  rw [hl] at hadd
  obtain ⟨hb, hm, hn⟩ := hadd
  have hp : ∀ h', s.placed h' = true → (s.place h n).placed h' = true := fun h' hh => by
    by_cases he : h' = h
    · subst he
      exact Function.update_self ..
    · exact (Function.update_of_ne he _ _).trans hh
  have hf : ∀ u, u ≠ t → Frame u (s.loc u) s ((s.place h n).goto t (.add d h g .setOwnPrev)) :=
    fun u hu => frame_of_owner hb.1 hu (fun _ _ => rfl) rfl rfl hp rfl (fun _ he => he)
      fun _ _ hc => hc
  have hlist : ∀ g' d' x, InList s g' d' x →
      InList ((s.place h n).goto t (.add d h g .setOwnPrev)) g' d' x := by
    intro g' d' x hx
    cases x with
    | list => exact hx
    | head h' => exact ⟨hx.1, hp h' hx.2⟩
  refine ⟨hi.lock.keep rfl rfl (by rw [hl]; cases d <;> rfl), hi.unknown, hi.state, hi.plain,
    hi.member, fun g' d' x hp' ho hx => ?_, locs_of_frame hi.loc rfl ⟨hb, hm, ?_⟩ hf⟩
  · by_cases hxh : x = .head h
    · subst hxh
      obtain ⟨rfl, rfl⟩ := Prod.mk.inj (Option.some.inj (hm.symm.trans hx.1))
      have hnext : ((s.place h n).goto t (.add d h g .setOwnPrev)).next (.head h) = n :=
        Function.update_self ..
      rw [hnext]
      exact hlist g d n hn
    · have hnext : ((s.place h n).goto t (.add d h g .setOwnPrev)).next x = s.next x :=
        Function.update_of_ne hxh _ _
      rw [hnext]
      refine hlist g' d' _ (hi.links g' d' x hp' ho ?_)
      cases x with
      | list => exact hx
      | head h' =>
        have hne : h' ≠ h := fun he => hxh (he ▸ rfl)
        exact ⟨hx.1, (Function.update_of_ne hne _ _).symm.trans hx.2⟩
  · exact Function.update_self ..

/-- The store of the tag: `h` is in `g` from now on. -/
theorem inv_join (hi : Inv s) (hl : s.loc t = .setTag h g)
    (hok : ∀ m, s.member h = some m → (s.phase m.1).isOver = true)
    (hs : s' = (s.join h g .outgoing).goto t (.add .outgoing h g .loadFirst)) : Inv s' := by
  have htag := hi.loc t
  rw [hl] at htag
  obtain ⟨hb, hknown, h0⟩ := htag
  have hfresh : s.phase g ≠ .fresh := by rw [hb.2]; nofun
  have hmem : s'.member = Function.update s.member h (some (g, .outgoing)) := hs ▸ rfl
  have hplaced : s'.placed = Function.update s.placed h false := hs ▸ rfl
  have hegi : s'.egi = Function.update s.egi h (tag g .outgoing) := hs ▸ rfl
  have hk : s'.known = s.known := hs ▸ rfl
  have hphase : s'.phase = s.phase := hs ▸ rfl
  have hnext : s'.next = s.next := hs ▸ rfl
  have hown : s'.owner = s.owner := hs ▸ rfl
  -- a head of a group that is not finished is another one
  have hopen : ∀ h' g' d', s.member h' = some (g', d') → (s.phase g').isOver = false → h' ≠ h := by
    rintro h' g' d' hm ho rfl
    rw [hok _ hm] at ho
    cases ho
  constructor
  case lock =>
    subst hs
    exact hi.lock.keep rfl rfl (by rw [hl]; rfl)
  case unknown =>
    intro h' hh
    rw [hk] at hh
    have hne : h' ≠ h := by
      rintro rfl
      rw [hh] at hknown
      cases hknown
    rw [hmem, Function.update_of_ne hne, show s'.lock = s.lock from hs ▸ rfl]
    exact hi.unknown h' hh
  case state =>
    rw [hphase, show s'.egState = s.egState from hs ▸ rfl]
    exact hi.state
  case plain =>
    intro h' hh hm
    by_cases hne : h' = h
    · rw [hmem, hne, Function.update_self] at hm
      cases hm
    · rw [hmem, Function.update_of_ne hne] at hm
      rw [hegi, Function.update_of_ne hne]
      exact hi.plain h' (hk ▸ hh) hm
  case member =>
    intro h' g' d' hm
    by_cases hne : h' = h
    · rw [hmem, hne, Function.update_self] at hm
      obtain ⟨rfl, rfl⟩ := Prod.mk.inj (Option.some.inj hm)
      rw [hphase, hegi, hne, Function.update_self]
      exact ⟨hfresh, .inl rfl⟩
    · rw [hmem, Function.update_of_ne hne] at hm
      rw [hphase, hegi, Function.update_of_ne hne]
      exact hi.member h' g' d' hm
  case links =>
    intro g' d' x hp ho hx
    rw [hphase] at hp ho
    have hx' : InList s g' d' x := by
      cases x with
      | list => exact hx
      | head h' =>
        have hne : h' ≠ h := by
          rintro rfl
          have := hx.2
          rw [hplaced, Function.update_self] at this
          cases this
        rwa [InList, hmem, hplaced, Function.update_of_ne hne, Function.update_of_ne hne] at hx
    have hy := hi.links g' d' x hp ho hx'
    rw [hnext]
    cases hn : s.next x with
    | list =>
      rw [hn] at hy
      exact hy
    | head h' =>
      rw [hn] at hy
      have hne := hopen h' g' d' hy.1 ho
      rw [InList, hmem, hplaced, Function.update_of_ne hne, Function.update_of_ne hne]
      exact hy
  case loc =>
    refine locs_of_frame (l := .add .outgoing h g .loadFirst) hi.loc (by rw [hs]; rfl)
      ⟨⟨hown ▸ hb.1, hphase ▸ hb.2⟩, ?_, trivial⟩ fun u hu => ?_
    · rw [hmem, Function.update_self]
    · constructor
      case own =>
        intro g' ho _
        rw [hown, hphase]
        exact ⟨ho, rfl⟩
      case member =>
        intro h' g' d' _ ho hm
        have hne := hopen h' g' d' hm ho
        rw [hmem, hplaced, Function.update_of_ne hne, Function.update_of_ne hne]
        exact ⟨hm, id⟩
      case known => exact fun h' hh => hk ▸ hh
      case egi =>
        intro h' hh he
        have hne : h' ≠ h := by
          rintro rfl
          exact hu (hi.lock.unique hh (by rw [hl]; rfl))
        rwa [hegi, Function.update_of_ne hne]
      case carried =>
        rintro h' v _ ⟨g', d', rfl, hp, he⟩
        refine ⟨g', d', rfl, hphase ▸ hp, fun hbuild => ?_⟩
        have he' := he (hphase ▸ hbuild)
        have hne : h' ≠ h := by
          rintro rfl
          exact tag_ne_zero g' d' (he'.symm.trans h0)
        rwa [hegi, Function.update_of_ne hne]

/-- The walk over `g` stores 0 to `eh_egi` of `h`. -/
theorem inv_clear {k : Kind} (hi : Inv s) (hl : s.loc t = .clear k g (.head h))
    (hs : s' = ((s.tick g).clear g h).goto t (.clearNext k g (.head h))) : Inv s' := by
  have hw := hi.loc t
  rw [hl] at hw
  obtain ⟨hw, hlist⟩ := hw
  have hegi : s'.egi = Function.update s.egi h 0 := hs ▸ rfl
  have hmem : s'.member = s.member := hs ▸ rfl
  have hphase : s'.phase = s.phase := hs ▸ rfl
  have hown : s'.owner = s.owner := hs ▸ rfl
  have hk : s'.known = s.known := hs ▸ rfl
  have hplaced : s'.placed = s.placed := hs ▸ rfl
  have hlist' : ∀ g d x, InList s' g d x ↔ InList s g d x := fun _ _ _ => InList.congr hmem hplaced
  have hzero : ∀ h', s.egi h' = 0 → s'.egi h' = 0 := fun h' h0 => by
    by_cases hne : h' = h
    · rw [hegi, hne, Function.update_self]
    · rw [hegi, Function.update_of_ne hne, h0]
  constructor
  case lock =>
    subst hs
    exact hi.lock.keep rfl rfl (by rw [hl]; rfl)
  case unknown =>
    rw [hk, hmem, show s'.lock = s.lock from hs ▸ rfl]
    exact hi.unknown
  case state =>
    rw [hphase, show s'.egState = s.egState from hs ▸ rfl]
    exact hi.state
  case plain =>
    intro h' hh hm
    exact hzero h' (hi.plain h' (hk ▸ hh) (hmem ▸ hm))
  case member =>
    intro h' g' d hm
    rw [hmem] at hm
    obtain ⟨h1, h2⟩ := hi.member h' g' d hm
    rw [hphase]
    refine ⟨h1, ?_⟩
    by_cases hne : h' = h
    · subst hne
      obtain ⟨rfl, rfl⟩ := Prod.mk.inj (Option.some.inj (hm.symm.trans hlist.1))
      refine .inr ⟨by rw [hegi, Function.update_self], ?_⟩
      rw [hw.2]
      exact decide_eq_true rfl
    · rw [hegi, Function.update_of_ne hne]
      exact h2
  case links =>
    intro g' d x h1 h2 hx
    rw [hlist'] at hx ⊢
    rw [hphase] at h1 h2
    rw [show s'.next = s.next from hs ▸ rfl]
    exact hi.links g' d x h1 h2 hx
  case loc =>
    refine locs_of_frame (l := .clearNext k g (.head h)) hi.loc (by rw [hs]; rfl)
      ⟨⟨hown ▸ hw.1, hphase ▸ hw.2⟩, (hlist' ..).mpr hlist⟩ fun u hu =>
        frame_of_owner hw.1 hu (fun _ _ => hphase ▸ rfl) hown hmem (fun _ hh => hplaced ▸ hh) hk
          hzero ?_
    rintro h' v ⟨g', d, rfl, h1, h2⟩
    refine ⟨g', d, rfl, hphase ▸ h1, fun hb => ?_⟩
    rw [hphase] at hb
    have he := h2 hb
    have hne : h' ≠ h := by
      rintro rfl
      rcases (hi.member h' g k.clearSide hlist.1).2 with h3 | ⟨h3, -⟩
      · obtain rfl := (tag_inj (he.symm.trans h3)).1
        rw [hw.2] at hb
        cases hb
      · exact tag_ne_zero g' d (he.symm.trans h3)
    rwa [hegi, Function.update_of_ne hne]

/-! ### Initialisers -/

omit [DecidableEq τ] in
theorem inv_groupInit (hi : Inv s) (hp : s.phase g = .fresh)
    (hs : s' = s.existenceGroupInit t g) : Inv s' := by
  have hphase : s'.phase = Function.update s.phase g .building := hs ▸ rfl
  have hown : s'.owner = Function.update s.owner g (some t) := hs ▸ rfl
  have hst : s'.egState = Function.update s.egState g.1 0 := hs ▸ rfl
  have hmem : s'.member = s.member := hs ▸ rfl
  have hplaced : s'.placed = s.placed := hs ▸ rfl
  have hegi : s'.egi = s.egi := hs ▸ rfl
  have hk : s'.known = s.known := hs ▸ rfl
  have hloc : s'.loc = s.loc := hs ▸ rfl
  have hold : ∀ g', s.phase g' ≠ .fresh → g' ≠ g := fun g' hg' he => hg' (he ▸ hp)
  have hof : ∀ g', g' ≠ g → s'.phase g' = s.phase g' := fun g' hg' => by
    rw [hphase, Function.update_of_ne hg']
  have hat : s'.phase g = .building := by rw [hphase, Function.update_self]
  have hself : ∀ d, s'.next (.list g d) = .list g d := fun d => by
    subst hs
    have hne : (Link.list g .outgoing : Link H) ≠ .list g .incoming := nofun
    cases d with
    | incoming => exact Function.update_self ..
    | outgoing => exact (Function.update_of_ne hne _ _).trans (Function.update_self ..)
  have hnext : ∀ x, (∀ d, x ≠ .list g d) → s'.next x = s.next x := fun x hx => by
    subst hs
    exact (Function.update_of_ne (hx _) _ _).trans (Function.update_of_ne (hx _) _ _)
  constructor
  case lock =>
    intro h u
    rw [hloc, show s'.lock = s.lock from hs ▸ rfl]
    exact hi.lock h u
  case unknown =>
    rw [hk, hmem, show s'.lock = s.lock from hs ▸ rfl]
    exact hi.unknown
  case state =>
    intro g' hg'
    by_cases hne : g' = g
    · rw [hne, hat, hst, Function.update_self]
      rfl
    · rw [hof g' hne] at hg' ⊢
      rw [hst, Function.update_of_ne fun he => hne (Subtype.ext he)]
      exact hi.state g' hg'
  case plain =>
    rw [hk, hmem, hegi]
    exact hi.plain
  case member =>
    intro h g' d hm
    rw [hmem] at hm
    obtain ⟨h1, h2⟩ := hi.member h g' d hm
    rw [hegi, hof g' (hold g' h1)]
    exact ⟨h1, h2⟩
  case links =>
    intro g' d x h1 h2 hx
    rw [InList.congr hmem hplaced] at hx ⊢
    by_cases hne : g' = g
    · subst hne
      cases x with
      | head h => exact absurd hp (hi.member h g' d hx.1).1
      | list g'' d' =>
        obtain ⟨rfl, rfl⟩ := hx
        rw [hself]
        exact ⟨rfl, rfl⟩
    · rw [hof g' hne] at h1 h2
      have hx' : ∀ d', x ≠ .list g d' := by
        rintro d' rfl
        exact hne hx.1.symm
      rw [hnext x hx']
      exact hi.links g' d x h1 h2 hx
  case loc =>
    intro u
    rw [hloc]
    refine (hi.loc u).frame ⟨fun g' ho hf => ?_, fun h g' d _ _ hm => ?_, fun h hh => hk ▸ hh,
      fun h _ he => hegi ▸ he, ?_⟩
    · rw [hown, Function.update_of_ne (hold g' hf), hof g' (hold g' hf)]
      exact ⟨ho, rfl⟩
    · rw [hmem, hplaced]
      exact ⟨hm, id⟩
    · rintro h v _ ⟨g', d, rfl, h1, h2⟩
      refine ⟨g', d, rfl, ?_⟩
      rw [hof g' (hold g' h1), hegi]
      exact ⟨h1, h2⟩

/-- A head is initialised, with or without a group. -/
theorem inv_headInit {v : Word} (hi : Inv s) (hl : s.loc t = .idle) (hk : s.known h = false)
    (hknown : s'.known = Function.update s.known h true)
    (hlock : s'.lock = Function.update s.lock h none)
    (hnext : s'.next = Function.update s.next (.head h) (.head h))
    (hegi : s'.egi = Function.update s.egi h v) (hst : s'.egState = s.egState)
    (hphase : s'.phase = s.phase) (hown : s'.owner = s.owner)
    (hmem : ∀ h', h' ≠ h → s'.member h' = s.member h')
    (hplaced : ∀ h', h' ≠ h → s'.placed h' = s.placed h')
    (hh : s'.member h = none ∧ v = 0 ∨
      s'.placed h = false ∧ ∃ g d, s'.member h = some (g, d) ∧ v = tag g d ∧ s.phase g ≠ .fresh)
    (hloc : s'.loc = Function.update s.loc t l) (hlh : l.holds = none) (hl' : LocInv t s' l) :
    Inv s' := by
  have hnone := hi.unknown h hk
  have hknown' : ∀ h', s.known h' = true → h' ≠ h := by
    rintro h' hh' rfl
    rw [hk] at hh'
    cases hh'
  have hmem' : ∀ h' m, s.member h' = some m → h' ≠ h := fun h' m hm =>
    hknown' h' (hi.known_of_member hm)
  have hlock' : s'.lock = s.lock := by
    rw [hlock, ← hnone.1, Function.update_eq_self]
  constructor
  case lock => exact hi.lock.keep hlock' hloc (by rw [hl, hlh]; rfl)
  case unknown =>
    intro h' hh'
    have hne : h' ≠ h := by
      rintro rfl
      rw [hknown, Function.update_self] at hh'
      cases hh'
    rw [hknown, Function.update_of_ne hne] at hh'
    rw [hlock', hmem h' hne]
    exact hi.unknown h' hh'
  case state =>
    rw [hphase, hst]
    exact hi.state
  case plain =>
    intro h' hh' hm
    by_cases hne : h' = h
    · subst hne
      rcases hh with ⟨-, hv⟩ | ⟨-, g, d, hm', -⟩
      · rw [hegi, Function.update_self, hv]
      · rw [hm] at hm'
        cases hm'
    · rw [hknown, Function.update_of_ne hne] at hh'
      rw [hmem h' hne] at hm
      rw [hegi, Function.update_of_ne hne]
      exact hi.plain h' hh' hm
  case member =>
    intro h' g d hm
    rw [hphase]
    by_cases hne : h' = h
    · subst hne
      rcases hh with ⟨hm', -⟩ | ⟨-, g', d', hm', hv, hf⟩
      · rw [hm] at hm'
        cases hm'
      · obtain ⟨rfl, rfl⟩ := Prod.mk.inj (Option.some.inj (hm.symm.trans hm'))
        exact ⟨hf, .inl (by rw [hegi, Function.update_self, hv])⟩
    · rw [hmem h' hne] at hm
      rw [hegi, Function.update_of_ne hne]
      exact hi.member h' g d hm
  case links =>
    intro g d x h1 h2 hx
    rw [hphase] at h1 h2
    -- the new head is on no list yet
    have hxh : x ≠ .head h := by
      rintro rfl
      rcases hh with ⟨hm', -⟩ | ⟨hp, -⟩
      · rw [hx.1] at hm'
        cases hm'
      · rw [hx.2] at hp
        cases hp
    have hx' : InList s g d x := by
      cases x with
      | list => exact hx
      | head h' =>
        have hne : h' ≠ h := fun he => hxh (he ▸ rfl)
        rwa [InList, hmem h' hne, hplaced h' hne] at hx
    have hy := hi.links g d x h1 h2 hx'
    rw [hnext, Function.update_of_ne hxh]
    cases hn : s.next x with
    | list =>
      rw [hn] at hy
      exact hy
    | head h' =>
      rw [hn] at hy
      have hne := hmem' h' _ hy.1
      rw [InList, hmem h' hne, hplaced h' hne]
      exact hy
  case loc =>
    refine locs_of_frame hi.loc hloc hl' fun u hu => ⟨fun g ho _ => ?_, fun h' g d _ _ hm => ?_,
      fun h' hh' => ?_, fun h' hh' he => ?_, ?_⟩
    · rw [hown, hphase]
      exact ⟨ho, rfl⟩
    · have hne := hmem' h' _ hm
      rw [hmem h' hne, hplaced h' hne]
      exact ⟨hm, id⟩
    · rw [hknown, Function.update_of_ne (hknown' h' hh')]
      exact hh'
    · have hne : h' ≠ h := by
        rintro rfl
        rw [← hi.lock, hnone.1] at hh'
        cases hh'
      rwa [hegi, Function.update_of_ne hne]
    · rintro h' w hw ⟨g, d, rfl, h1, h2⟩
      refine ⟨g, d, rfl, ?_⟩
      rw [hphase, hegi, Function.update_of_ne (hknown' h' hw)]
      exact ⟨h1, h2⟩

/-! ### Every step -/

/-- **Every step keeps the invariant.** -/
theorem inv_stepThread (hi : Inv s) (hok : Scoped (.step t) s) (hn : stepThread t s = some s') :
    Inv s' := by
  have hk := lock_stepThread hi.lock hn
  have hloc := hi.loc t
  have hnone : ∀ h, s.known h = false → s.lock h = none := fun h hh => (hi.unknown h hh).1
  -- a lock that is taken is one of a known head
  have htake : ∀ h o, s.known h = true → ∀ h', s.known h' = false →
      Function.update s.lock h o h' = none := fun h o hh h' hh' => by
    rw [Function.update_of_ne (by rintro rfl; rw [hh] at hh'; cases hh')]
    exact hnone h' hh'
  have hdrop : ∀ h, ∀ h', s.known h' = false → Function.update s.lock h none h' = none :=
    fun h h' hh' => by
      by_cases hne : h' = h
      · rw [hne, Function.update_self]
      · rw [Function.update_of_ne hne]
        exact hnone h' hh'
  unfold stepThread at hn
  cases hl : s.loc t with
  | idle | ehAdd => simp [hl] at hn
  | add d h g pc =>
    rw [hl] at hloc
    obtain ⟨hb, hm, hpc⟩ := hloc
    cases pc with
    | setNext n =>
      simp only [hl, Option.some.injEq] at hn
      subst hn
      exact inv_place hi hl
    | setFirst =>
      have hlist : InList s g d (.head h) := ⟨hm, hpc⟩
      cases d <;> simp only [hl, Option.some.injEq] at hn <;> subst hn
      · have hj := inv_setFirst (l := .idle) hi hlist trivial (by rw [hl]; rfl)
        exact hj.keep ⟨rfl, rfl, rfl, rfl, rfl, rfl, rfl, rfl⟩ hk hnone (l := .idle)
          (Function.update_idem _ _ _).symm trivial
      · exact inv_setFirst (l := .unlock h 0) hi hlist trivial (by rw [hl]; rfl)
    | loadNext =>
      simp only [hl, Option.some.injEq] at hn
      subst hn
      refine hi.keep ⟨rfl, rfl, rfl, rfl, rfl, rfl, rfl, rfl⟩ hk hnone rfl ⟨hb, hm, ?_⟩
      exact hi.links g d _ (by rw [hb.2]; nofun) hb.open_ ⟨rfl, rfl⟩
    | _ =>
      simp only [hl, Option.some.injEq] at hn
      subst hn
      exact hi.keep ⟨rfl, rfl, rfl, rfl, rfl, rfl, rfl, rfl⟩ hk hnone rfl ⟨hb, hm, hpc⟩
  | lock h g =>
    rw [hl] at hloc
    simp only [hl] at hn
    split at hn <;> simp only [Option.some.injEq, reduceCtorEq] at hn
    subst hn
    exact hi.keep ⟨rfl, rfl, rfl, rfl, rfl, rfl, rfl, rfl⟩ hk (htake h _ hloc.2) rfl hloc
  | gone h g =>
    rw [hl] at hloc
    simp only [hl, Option.some.injEq] at hn
    subst hn
    refine hi.keep ⟨rfl, rfl, rfl, rfl, rfl, rfl, rfl, rfl⟩ hk hnone rfl ?_
    split
    · trivial
    · exact hloc
  | egi h g =>
    rw [hl] at hloc
    simp only [hl, Option.some.injEq] at hn
    subst hn
    refine hi.keep ⟨rfl, rfl, rfl, rfl, rfl, rfl, rfl, rfl⟩ hk hnone rfl ?_
    split
    · trivial
    · rename_i h0
      exact ⟨hloc.1, hloc.2, not_not.mp h0⟩
  | bugTag h g =>
    rw [hl] at hloc
    simp only [hl, Option.ite_none_left_eq_some, Option.some.injEq] at hn
    obtain ⟨-, rfl⟩ := hn
    exact hi.keep ⟨rfl, rfl, rfl, rfl, rfl, rfl, rfl, rfl⟩ hk hnone rfl hloc
  | setTag h g =>
    simp only [hl, Option.some.injEq] at hn
    simp only [Scoped, hl] at hok
    exact inv_join hi hl hok hn.symm
  | unlock h ret =>
    simp only [hl, Option.some.injEq] at hn
    subst hn
    exact hi.keep (l := .idle) ⟨rfl, rfl, rfl, rfl, rfl, rfl, rfl, rfl⟩ hk (hdrop h) rfl trivial
  | bug k g =>
    rw [hl] at hloc
    have hfresh : s.phase g ≠ .fresh := by rw [hloc.2]; nofun
    have hst : s.egState g.1 = 0 := by rw [hi.state g hfresh, hloc.2]; rfl
    cases k with
    | flip =>
      simp only [hl, Option.ite_none_left_eq_some, Option.some.injEq] at hn
      obtain ⟨-, rfl⟩ := hn
      exact hi.keep (l := .setState g) ⟨rfl, rfl, rfl, rfl, rfl, rfl, rfl, rfl⟩ hk hnone rfl hloc
    | backout =>
      simp only [hl, Option.ite_none_left_eq_some, Option.some.injEq] at hn
      obtain ⟨-, rfl⟩ := hn
      exact inv_phase (p := .running .backout) hi hloc.1 hfresh (Builds.open_ hloc) nofun
        (by rw [hloc.2]; nofun) hst (fun _ _ => rfl) rfl rfl rfl rfl rfl rfl rfl rfl rfl
        (by rw [hl]; rfl) nofun ⟨⟨hloc.1, Function.update_self ..⟩, rfl, rfl⟩
  | setState g =>
    rw [hl] at hloc
    have hfresh : s.phase g ≠ .fresh := by rw [hloc.2]; nofun
    simp only [hl, Option.some.injEq] at hn
    subst hn
    exact inv_phase (p := .running .flip) hi hloc.1 hfresh (Builds.open_ hloc) nofun
      (by rw [hloc.2]; nofun) (Function.update_self ..)
      (fun g' hg' => Function.update_of_ne (fun he => hg' (Subtype.ext he)) _ _) rfl rfl rfl rfl
      rfl rfl rfl rfl rfl (by rw [hl]; rfl) nofun ⟨⟨hloc.1, Function.update_self ..⟩, rfl, rfl⟩
  | clearNext k g x =>
    rw [hl] at hloc
    obtain ⟨hw, hx⟩ := hloc
    simp only [hl, Option.some.injEq] at hn
    subst hn
    refine hi.keep ⟨rfl, rfl, rfl, rfl, rfl, rfl, rfl, rfl⟩ hk hnone rfl ?_
    split
    · exact ⟨hw, rfl, rfl⟩
    · exact ⟨hw, hi.links g _ x (by rw [hw.2]; nofun) hw.open_ hx⟩
  | clear k g x =>
    cases x with
    | list => simp [hl] at hn
    | head h =>
      simp only [hl, Option.some.injEq] at hn
      exact inv_clear hi hl hn.symm
  | cleanNext k g x =>
    rw [hl] at hloc
    obtain ⟨hw, hx⟩ := hloc
    have hfresh : s.phase g ≠ .fresh := by rw [hw.2]; nofun
    simp only [hl] at hn
    split at hn
    · simp only [Option.some.injEq] at hn
      subst hn
      refine inv_phase (l := .idle) (p := .finished k) hi hw.1 hfresh hw.open_ nofun (fun d => ?_) ?_
        (fun _ _ => rfl) rfl rfl rfl rfl rfl rfl rfl rfl rfl (by rw [hl]; rfl) nofun trivial
      · rw [hw.2]
        exact id
      · have hst := hi.state g hfresh
        rw [hw.2] at hst
        cases k <;> exact hst
    · simp only [Option.some.injEq] at hn
      subst hn
      exact hi.keep ⟨rfl, rfl, rfl, rfl, rfl, rfl, rfl, rfl⟩ hk hnone rfl
        ⟨hw, hi.links g _ x hfresh hw.open_ hx⟩
  | cleanLock k g x =>
    rw [hl] at hloc
    cases x with
    | list => simp [hl] at hn
    | head h =>
      simp only [hl] at hn
      split at hn <;> simp only [Option.some.injEq, reduceCtorEq] at hn
      subst hn
      exact hi.keep (l := .cleanBug k g h) ⟨rfl, rfl, rfl, rfl, rfl, rfl, rfl, rfl⟩ hk
        (htake h _ (hi.known_of_member hloc.2.1)) rfl hloc
  | cleanBug k g h =>
    rw [hl] at hloc
    simp only [hl, Option.ite_none_left_eq_some, Option.some.injEq] at hn
    obtain ⟨-, rfl⟩ := hn
    exact hi.keep (l := .cleanGone k g h) ⟨rfl, rfl, rfl, rfl, rfl, rfl, rfl, rfl⟩ hk hnone rfl hloc
  | cleanGone k g h =>
    rw [hl] at hloc
    simp only [hl, Option.some.injEq] at hn
    subst hn
    exact hi.keep (l := .cleanUnlock k g h) ⟨rfl, rfl, rfl, rfl, rfl, rfl, rfl, rfl⟩ hk hnone rfl hloc
  | cleanUnlock k g h =>
    rw [hl] at hloc
    simp only [hl, Option.some.injEq] at hn
    subst hn
    exact hi.keep (l := .cleanNext k g (.head h)) ⟨rfl, rfl, rfl, rfl, rfl, rfl, rfl, rfl⟩ hk
      (hdrop h) rfl hloc
  | loadEgi h =>
    rw [hl] at hloc
    simp only [hl] at hn
    split at hn <;> simp only [Option.some.injEq] at hn <;> subst hn
    · exact hi.keep (l := .idle) ⟨rfl, rfl, rfl, rfl, rfl, rfl, rfl, rfl⟩ hk hnone rfl trivial
    · rename_i h0
      refine hi.keep ⟨rfl, rfl, rfl, rfl, rfl, rfl, rfl, rfl⟩ hk hnone rfl ⟨hloc, ?_⟩
      cases hm : s.member h with
      | none => exact absurd (hi.plain h hloc hm) h0
      | some m =>
        obtain ⟨hf, he | he⟩ := hi.member h m.1 m.2 hm
        · exact ⟨m.1, m.2, he, hf, fun _ => rfl⟩
        · exact absurd he.1 h0
  | loadState h v =>
    simp only [hl, Option.some.injEq] at hn
    subst hn
    exact hi.keep (l := .idle) ⟨rfl, rfl, rfl, rfl, rfl, rfl, rfl, rfl⟩ hk hnone rfl trivial

theorem inv_act {a : Act τ H} (hi : Inv s) (hok : Scoped a s) (hn : act a s = some s') :
    Inv s' := by
  have hnone : ∀ h, s.known h = false → s.lock h = none := fun h hh => (hi.unknown h hh).1
  cases a with
  | step t => exact inv_stepThread hi hok hn
  | groupInit t g =>
    rw [act] at hn
    split at hn <;> simp only [Option.some.injEq, reduceCtorEq] at hn
    exact inv_groupInit hi ‹_› hn.symm
  | initPerm t h =>
    rw [act] at hn
    split at hn <;> simp only [Option.some.injEq, reduceCtorEq] at hn
    rename_i hl hk
    subst hn
    exact inv_headInit (l := .idle) (v := 0) hi hl hk rfl rfl rfl rfl rfl rfl rfl (fun _ _ => rfl)
      (fun _ _ => rfl) (.inl ⟨(hi.unknown h hk).2, rfl⟩)
      (by rw [← hl, Function.update_eq_self]; rfl) rfl trivial
  | initIncoming t h g =>
    rw [act] at hn
    split at hn
    · rename_i hl hk
      simp only [Option.ite_none_left_eq_some, Option.some.injEq] at hn
      obtain ⟨-, rfl⟩ := hn
      exact inv_headInit (l := .ehAdd h g) (v := tag g .incoming) hi hl hk rfl rfl rfl
        (Function.update_idem _ _ _) rfl rfl rfl (fun _ hne => Function.update_of_ne hne _ _)
        (fun _ hne => Function.update_of_ne hne _ _)
        (.inr ⟨Function.update_self .., g, .incoming, Function.update_self .., rfl, by
          rw [hok.2]; nofun⟩) rfl rfl ⟨hok, Function.update_self ..⟩
    · cases hn
  | ehAdd t ret =>
    rw [act] at hn
    split at hn <;> simp only [Option.some.injEq, reduceCtorEq] at hn
    rename_i h g hl
    have hloc := hi.loc t
    rw [hl] at hloc
    subst hn
    split
    · exact hi.keep (l := .add .incoming h g .loadFirst) ⟨rfl, rfl, rfl, rfl, rfl, rfl, rfl, rfl⟩
        (hi.lock.keep rfl rfl (by rw [hl]; rfl)) hnone rfl ⟨hloc.1, hloc.2, trivial⟩
    · exact hi.keep (l := .idle) ⟨rfl, rfl, rfl, rfl, rfl, rfl, rfl, rfl⟩
        (hi.lock.keep rfl rfl (by rw [hl]; rfl)) hnone rfl trivial
  | setOutgoing t h g =>
    rw [act] at hn
    split at hn <;> simp only [Option.some.injEq, reduceCtorEq] at hn
    rename_i hl hk
    subst hn
    exact hi.keep (l := .lock h g) ⟨rfl, rfl, rfl, rfl, rfl, rfl, rfl, rfl⟩
      (hi.lock.keep rfl rfl (by rw [hl]; rfl)) hnone rfl ⟨hok, hk⟩
  | walk k t g =>
    rw [act] at hn
    split at hn <;> simp only [Option.some.injEq, reduceCtorEq] at hn
    rename_i hl
    subst hn
    exact hi.keep (l := .bug k g) ⟨rfl, rfl, rfl, rfl, rfl, rfl, rfl, rfl⟩
      (hi.lock.keep rfl rfl (by rw [hl]; rfl)) hnone rfl hok
  | ask t h =>
    rw [act] at hn
    split at hn <;> simp only [Option.some.injEq, reduceCtorEq] at hn
    rename_i hl hk
    subst hn
    exact hi.keep (l := .loadEgi h) ⟨rfl, rfl, rfl, rfl, rfl, rfl, rfl, rfl⟩
      (hi.lock.keep rfl rfl (by rw [hl]; rfl)) hnone rfl hk

end Switch
end Existence
end Perfbook
