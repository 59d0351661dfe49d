/-
# What the routing table keeps

The entries from `route_list` on are a list `q` of cells in use (`path`). An
entry that is in use and not in the list is with one thread (`own`): the one
that adds it, the one that deletes it, or the one that retired it. Its link is
poisoned, unless its thread has not come to that yet (`stale`).

What a lookup is going to access is in use and was published. It is covered, and
no scan that has read the covering hazard pointer has missed it
(`ReadsAt`, `Guard`), but for the second read of its link: there it is the
condition on the frees that keeps it in use.

Key definitions: `own`, `LocInv`, `Guard`, `ReadsAt`, `InvOf`.
Key theorems: `InvOf.check`, `InvOf.free`, `inv_next`, `lookups_safe`, `reads_freed_entry`.
-/
import Perfbook.Conc.Lock
import Perfbook.Conc.Path
import Perfbook.Hazptr.Route

namespace Perfbook
namespace Hazptr
namespace Route

open Conc

variable {n : ℕ}

/-- The thread holds `routelock`. -/
def holds : Loc → Bool
  | .addLoad _ | .addStore _ _ | .addLink _ | .addUnlock | .delLoad _ _ | .delAddr _ _ _
  | .delNext _ _ | .unlink _ _ _ | .poison _ | .delUnlock _ => true
  | _ => false

/-- The entry that is not published yet. -/
def priv : Loc → Option Ptr
  | .addLock rep | .addLoad rep | .addStore rep _ | .addLink rep => some rep
  | _ => none

/-- The entries that are with the thread, for where it is. -/
def owned : Loc → List Ptr
  | .addLock rep | .addLoad rep | .addStore rep _ | .addLink rep => [rep]
  | .poison rep | .delUnlock (some rep) | .freeLater rep => [rep]
  | .sweep _ tmplist => tmplist
  | _ => []

def own (s : St n) (t : Fin n) : List Ptr := s.rlist t ++ owned (s.loc t)

/-- A scan that has read the hazard pointer `i` has not missed `x`. -/
def GuardAt (i : ℕ) (x : Ptr) (rlist : List Ptr) : Loc → Prop
  | .scan j plist => x ∈ rlist → i < j → x ∈ plist
  | .sweep plist tmplist => x ∈ tmplist → x ∈ plist
  | _ => True

def Guard (s : St n) (i : ℕ) (x : Ptr) : Prop := ∀ u, GuardAt i x (s.rlist u) (s.loc u)

/-- What a lookup relies on. -/
def ReadsAt (s : St n) (t : Fin n) (l : Loc) : Prop :=
  ∀ x, uses l = some x → s.live x = true ∧ (∀ u, priv (s.loc u) ≠ some x) ∧
    (x = .head ∨ rechecks l ≠ none ∨ s.HP (myHazptr t 0) = x ∧ Guard s (myHazptr t 0) x)

/-- What holds at each place of the code. -/
def LocInv (s : St n) (q : List Ptr) (t : Fin n) : Loc → Prop
  | .record _ p tmp => tmp ≠ p ∧ tmp ≠ .null ∧ tmp ≠ .poison
  | .check _ p tmp => (tmp ≠ p ∧ tmp ≠ .null ∧ tmp ≠ .poison) ∧ s.HP (myHazptr t 0) = tmp
  | .aborted => False
  | .addStore _ x => s.reNext .head = x
  | .addLink rep => s.reNext rep = s.reNext .head
  | .delLoad _ p => p ∈ q
  | .delAddr _ p rep | .delNext p rep => ∃ l₁ l₂, q = l₁ ++ p :: rep :: l₂
  | .unlink p rep x => (∃ l₁ l₂, q = l₁ ++ p :: rep :: l₂) ∧ s.reNext rep = x
  | .poison rep => s.reNext rep = .null ∨ s.reNext rep ∈ q
  | _ => True

/-- The invariant; `q` is the list, with its head. -/
structure InvOf (s : St n) (q : List Ptr) : Prop where
  path : Path s.reNext .head q .null
  nodup : q.Nodup
  live : ∀ x ∈ q, s.live x = true
  dead : s.live .null = false ∧ s.live .poison = false
  fresh : ∀ x, s.live x = true → s.reFreed x = false
  lock : LockedBy holds s.routelock s.loc
  ownNodup : ∀ t, (own s t).Nodup
  ownLive : ∀ t, ∀ x ∈ own s t, s.live x = true ∧ x ∉ q
  ownOne : ∀ t u x, x ∈ own s t → x ∈ own s u → t = u
  stale : ∀ x, s.live x = true → x ∉ q → (∀ t, priv (s.loc t) ≠ some x) →
    s.reNext x = .poison ∨ ∃ t, s.loc t = .poison x
  slots : ∀ i, i % K ≠ 0 → s.HP i = .null
  loc : ∀ t, LocInv s q t (s.loc t)
  reads : ∀ t, ReadsAt s t (s.loc t)

variable {s s' : St n} {q l₁ l₂ : List Ptr} {p rep tmp x y : Ptr} {t u : Fin n} {l : Loc} {i : ℕ}

/-! ### The list -/

theorem InvOf.head_mem (h : InvOf s q) : Ptr.head ∈ q := by
  cases q with
  | nil => cases h.path
  | cons a l => exact h.path.1 ▸ List.mem_cons_self

/-- Where the link of a cell in the list leads. -/
theorem InvOf.next_mem (h : InvOf s q) (hp : p ∈ q) :
    s.reNext p = .null ∨ ∃ l₁ l₂, q = l₁ ++ p :: s.reNext p :: l₂ := by
  obtain ⟨l₁, l₂, rfl⟩ := List.append_of_mem hp
  obtain ⟨y, -, rfl, hy⟩ := path_append.mp h.path
  cases l₂ with
  | nil => exact .inl hy
  | cons z l₂ =>
    obtain ⟨rfl, -⟩ := hy
    exact .inr ⟨l₁, l₂, rfl⟩

theorem InvOf.next_ne (h : InvOf s q) (hp : p ∈ q) (hn : s.reNext p ≠ .null) :
    s.reNext p ∈ q ∧ s.reNext p ≠ p := by
  rcases h.next_mem hp with hnull | ⟨l₁, l₂, hq⟩
  · exact absurd hnull hn
  · refine ⟨by rw [hq]; simp, fun he => ?_⟩
    have hnd := h.nodup
    rw [hq] at hnd
    have := (List.nodup_cons.mp (List.nodup_append.mp hnd).2.1).1
    rw [he] at this
    exact this List.mem_cons_self

/-- An entry that is not published is with its thread. -/
theorem priv_owned (hp : priv l = some x) : x ∈ owned l := by
  cases l <;> simp [priv] at hp <;> simp [owned, hp]

theorem InvOf.not_priv (h : InvOf s q) (hx : x ∈ q) (u : Fin n) : priv (s.loc u) ≠ some x :=
  fun hp => (h.ownLive u x (List.mem_append_right _ (priv_owned hp))).2 hx

/-- **The link of a published cell** is `NULL` or poison, or leads to the list. -/
theorem InvOf.next_published (h : InvOf s q) (hl : s.live p = true)
    (hp : ∀ u, priv (s.loc u) ≠ some p) :
    s.reNext p = .null ∨ s.reNext p = .poison ∨ s.reNext p ∈ q ∧ s.reNext p ≠ p := by
  by_cases hq : p ∈ q
  · by_cases hn : s.reNext p = .null
    · exact .inl hn
    · exact .inr (.inr (h.next_ne hq hn))
  · rcases h.stale p hl hq hp with hx | ⟨u, hu⟩
    · exact .inr (.inl hx)
    · have hlu := h.loc u
      rw [hu] at hlu
      refine hlu.imp id fun hm => .inr ⟨hm, fun he => hq ?_⟩
      rwa [he] at hm

/-- No scan is about to free a cell of the list. -/
theorem InvOf.guard_mem (h : InvOf s q) (hx : x ∈ q) : Guard s i x := by
  intro u
  have hno : x ∉ own s u := fun hm => (h.ownLive u x hm).2 hx
  unfold own at hno
  unfold GuardAt
  split
  · exact fun hm => absurd (List.mem_append_left _ hm) hno
  · rename_i hl
    rw [hl] at hno
    exact fun hm => absurd (List.mem_append_right _ hm) hno
  · trivial

/-! ### Steps that touch neither links nor entries -/

/-- What one thread relies on, when another moves. -/
theorem ReadsAt.frame (hr : ReadsAt s u (s.loc u)) (hlive : ∀ x, uses (s.loc u) = some x →
      s.live x = true → s'.live x = true)
    (hpriv : ∀ v x, s.live x = true → priv (s'.loc v) = some x → priv (s.loc v) = some x)
    (hHP : s'.HP (myHazptr u 0) = s.HP (myHazptr u 0)) (hl : s'.loc u = s.loc u)
    (hguard : ∀ x, s.live x = true → s.HP (myHazptr u 0) = x → Guard s (myHazptr u 0) x →
      Guard s' (myHazptr u 0) x) : ReadsAt s' u (s'.loc u) := by
  rw [hl]
  intro x hx
  obtain ⟨hlx, hp, hcov⟩ := hr x hx
  refine ⟨hlive x hx hlx, fun v hv => hp v (hpriv v x hlx hv), hcov.imp id (Or.imp id ?_)⟩
  rintro ⟨hh, hg⟩
  exact ⟨hHP.trans hh, hguard x hlx hh hg⟩

/-- A thread goes on. -/
theorem InvOf.move (h : InvOf s q) (hloc : s'.loc = Function.update s.loc t l)
    (hnext : s'.reNext = s.reNext) (hlive : s'.live = s.live) (hfreed : s'.reFreed = s.reFreed)
    (hHP : s'.HP = s.HP) (hrlist : s'.rlist = s.rlist) (hlock : LockedBy holds s'.routelock s'.loc)
    (howned : owned l = owned (s.loc t)) (hpriv : priv l = priv (s.loc t))
    (hpoison : ∀ x, s.loc t ≠ .poison x) (hl : LocInv s q t l)
    (huse : ∀ x, uses l = some x → s.live x = true ∧ (∀ u, priv (s.loc u) ≠ some x) ∧
      (x = .head ∨ rechecks l ≠ none ∨ s.HP (myHazptr t 0) = x ∧ Guard s (myHazptr t 0) x))
    (hguard : ∀ i x, s.live x = true → s.HP i = x → GuardAt i x (s.rlist t) (s.loc t) →
      GuardAt i x (s.rlist t) l) : InvOf s' q := by
  have hown : ∀ u, own s' u = own s u := by
    intro u
    rw [own, own, hrlist]
    exact congrArg _ (proj_update hloc owned howned u)
  have hprivAll : ∀ u, priv (s'.loc u) = priv (s.loc u) := proj_update hloc priv hpriv
  have hlocInv : ∀ u x, LocInv s q u x → LocInv s' q u x := by
    intro u x hx
    cases x <;> simp only [LocInv, hnext, hHP] at hx ⊢ <;> exact hx
  have hguardAll : ∀ i x, s.live x = true → s.HP i = x → Guard s i x → Guard s' i x := by
    intro i x hx hi hg u
    rw [hrlist]
    exact forall_update (P := fun u y => GuardAt i x (s.rlist u) y) hloc (hguard i x hx hi (hg t))
      (fun u _ => hg u) u
  refine
    { path := hnext ▸ h.path
      nodup := h.nodup
      live := hlive ▸ h.live
      dead := hlive ▸ h.dead
      fresh := by rw [hlive, hfreed]; exact h.fresh
      lock := hlock
      ownNodup := fun u => hown u ▸ h.ownNodup u
      ownLive := fun u x hx => hlive ▸ h.ownLive u x (hown u ▸ hx)
      ownOne := fun u v x hu hv => h.ownOne u v x (hown u ▸ hu) (hown v ▸ hv)
      stale := fun x hx hq hp => ?_
      slots := hHP ▸ h.slots
      loc := forall_update (P := fun u x => LocInv s' q u x) hloc (hlocInv t l hl)
        fun u _ => hlocInv u _ (h.loc u)
      reads := fun u => ?_ }
  · rw [hnext]
    refine (h.stale x (hlive ▸ hx) hq fun u => hprivAll u ▸ hp u).imp id fun ⟨u, hu⟩ => ⟨u, ?_⟩
    rw [update_ne hloc, hu]
    rintro rfl
    exact hpoison x hu
  · by_cases hut : u = t
    · subst hut
      rw [update_self hloc]
      intro x hx
      obtain ⟨hlx, hpx, hcov⟩ := huse x hx
      refine ⟨hlive ▸ hlx, fun v => hprivAll v ▸ hpx v, hcov.imp id (Or.imp id ?_)⟩
      rintro ⟨hh, hg⟩
      exact ⟨hHP ▸ hh, hguardAll _ x hlx hh hg⟩
    · exact (h.reads u).frame (fun x _ hx => hlive ▸ hx) (fun v x _ hv => hprivAll v ▸ hv)
        (by rw [hHP]) (update_ne hloc hut) fun x hx hh hg => hguardAll _ x hx hh hg

/-- A thread goes on to a place that is not in a lookup. -/
theorem InvOf.walk (h : InvOf s q) (hloc : s'.loc = Function.update s.loc t l)
    (hnext : s'.reNext = s.reNext) (hlive : s'.live = s.live) (hfreed : s'.reFreed = s.reFreed)
    (hHP : s'.HP = s.HP) (hrlist : s'.rlist = s.rlist) (hlock : LockedBy holds s'.routelock s'.loc)
    (howned : owned l = owned (s.loc t)) (hpriv : priv l = priv (s.loc t))
    (hpoison : ∀ x, s.loc t ≠ .poison x) (hl : LocInv s q t l) (huse : uses l = none)
    (hguard : ∀ i x rl, GuardAt i x rl l) : InvOf s' q :=
  h.move hloc hnext hlive hfreed hHP hrlist hlock howned hpriv hpoison hl
    (fun x hx => by rw [huse] at hx; cases hx) fun i x _ _ _ => hguard i x _

/-! ### Links -/

/-- Without the lock a thread relies on no link. -/
theorem LocInv.frame {q' : List Ptr} (hl : LocInv s q t l) (hh : holds l = false)
    (hHP : s'.HP (myHazptr t 0) = s.HP (myHazptr t 0)) : LocInv s' q' t l := by
  cases l with
  | check => exact ⟨hl.1, hHP.trans hl.2⟩
  | record | aborted => exact hl
  | idle | load | readAddr | readFreed | readIface | addLock | delLock | freeLater | scan | sweep =>
    trivial
  | addLoad | addStore | addLink | addUnlock | delLoad | delAddr | delNext | unlink | poison
  | delUnlock => cases hh

/-- What a place under the lock is not. -/
theorem holds_spec (hh : holds l = true) : uses l = none ∧ ∀ i x rl, GuardAt i x rl l := by
  cases l <;> simp [holds] at hh <;> simp [uses, GuardAt]

/-- The holder of the lock stores to a link; `q'` is the list then. -/
theorem InvOf.write {q' : List Ptr} (h : InvOf s q) (ht : holds (s.loc t) = true)
    (hloc : s'.loc = Function.update s.loc t l) (hlive : s'.live = s.live)
    (hfreed : s'.reFreed = s.reFreed) (hHP : s'.HP = s.HP) (hrlist : s'.rlist = s.rlist)
    (hlock : s'.routelock = s.routelock) (hlh : holds l = true)
    (hpath : Path s'.reNext .head q' .null) (hnodup : q'.Nodup) (hlive' : ∀ x ∈ q', s.live x = true)
    (hq : ∀ u, u ≠ t → ∀ x ∈ own s u, x ∉ q') (hnd : (s.rlist t ++ owned l).Nodup)
    (howned : ∀ x ∈ s.rlist t ++ owned l, s.live x = true ∧ x ∉ q' ∧ ∀ u, u ≠ t → x ∉ own s u)
    (hpriv : ∀ x, priv l = some x → priv (s.loc t) = some x)
    (hstale : ∀ x, s.live x = true → x ∉ q' → priv l ≠ some x →
      (∀ u, u ≠ t → priv (s.loc u) ≠ some x) →
      s'.reNext x = .poison ∨ l = .poison x ∨ ∃ u, u ≠ t ∧ s.loc u = .poison x)
    (hl : LocInv s' q' t l) : InvOf s' q' := by
  have hself : s'.loc t = l := update_self hloc
  have hne : ∀ u, u ≠ t → s'.loc u = s.loc u := fun u hu => update_ne hloc hu
  have hother : ∀ u, u ≠ t → holds (s.loc u) = false := fun u hu =>
    Bool.eq_false_iff.mpr fun hh => hu (h.lock.eq ht hh)
  have hownt : own s' t = s.rlist t ++ owned l := by rw [own, hrlist, hself]
  have hownu : ∀ u, u ≠ t → own s' u = own s u := fun u hu => by rw [own, own, hrlist, hne u hu]
  obtain ⟨huses, hguardl⟩ := holds_spec hlh
  refine
    { path := hpath
      nodup := hnodup
      live := fun x hx => hlive ▸ hlive' x hx
      dead := hlive ▸ h.dead
      fresh := by rw [hlive, hfreed]; exact h.fresh
      lock := hlock ▸ h.lock.stay hloc (hlh.trans ht.symm)
      ownNodup := fun u => ?_
      ownLive := fun u x hx => ?_
      ownOne := fun u v x hu hv => ?_
      stale := fun x hx hxq hp => ?_
      slots := hHP ▸ h.slots
      loc := forall_update (P := fun u x => LocInv s' q' u x) hloc hl fun u hu =>
        (h.loc u).frame (hother u hu) (by rw [hHP])
      reads := fun u => ?_ }
  · by_cases hu : u = t
    · rw [hu, hownt]
      exact hnd
    · rw [hownu u hu]
      exact h.ownNodup u
  · by_cases hu : u = t
    · rw [hu, hownt] at hx
      exact ⟨hlive ▸ (howned x hx).1, (howned x hx).2.1⟩
    · rw [hownu u hu] at hx
      exact ⟨hlive ▸ (h.ownLive u x hx).1, hq u hu x hx⟩
  · by_cases hut : u = t <;> by_cases hvt : v = t
    · rw [hut, hvt]
    · rw [hut, hownt] at hu
      rw [hownu v hvt] at hv
      exact absurd hv ((howned x hu).2.2 v hvt)
    · rw [hvt, hownt] at hv
      rw [hownu u hut] at hu
      exact absurd hu ((howned x hv).2.2 u hut)
    · rw [hownu u hut] at hu
      rw [hownu v hvt] at hv
      exact h.ownOne u v x hu hv
  · have hpt := hp t
    rw [hself] at hpt
    rcases hstale x (hlive ▸ hx) hxq hpt fun u hu => hne u hu ▸ hp u with hx | hx | ⟨u, hu, hx⟩
    · exact .inl hx
    · exact .inr ⟨t, hself.trans hx⟩
    · exact .inr ⟨u, (hne u hu).trans hx⟩
  · by_cases hu : u = t
    · rw [hu, hself]
      intro x hx
      rw [huses] at hx
      cases hx
    · refine (h.reads u).frame (fun x _ hx => hlive ▸ hx) (fun v x _ hv => ?_) (by rw [hHP]) (hne u hu)
        fun x _ _ hg v => ?_
      · by_cases hvt : v = t
        · rw [hvt, hself] at hv
          rw [hvt]
          exact hpriv x hv
        · rwa [hne v hvt] at hv
      · rw [hrlist]
        exact forall_update (P := fun v y => GuardAt _ x (s.rlist v) y) hloc (hguardl _ x _)
          (fun v _ => hg v) v

/-- `rep->re_next = route_list.re_next`, of an entry that is not published. -/
theorem InvOf.addStore (h : InvOf s q) (hl : s.loc t = .addStore rep x) :
    InvOf ((s.store rep x).goto t (.addLink rep)) q := by
  have hrep : rep ∈ own s t := by simp [own, hl, owned]
  have hout := (h.ownLive t rep hrep).2
  have hx : s.reNext .head = x := by
    have := h.loc t
    rwa [hl] at this
  have hne : ∀ y, y ≠ rep → (s.store rep x).reNext y = s.reNext y := fun y hy =>
    Function.update_of_ne hy _ _
  have hown : s.rlist t ++ owned (.addLink rep) = own s t := by rw [own, hl]; rfl
  refine h.write (by rw [hl]; rfl) rfl rfl rfl rfl rfl rfl rfl (h.path.update hout) h.nodup h.live
    (fun u _ x hx => (h.ownLive u x hx).2) (hown ▸ h.ownNodup t) (fun y hy => ?_) (fun y hy => by
      rw [hl]; exact hy) (fun y hy hyq hp hpu => ?_) ?_
  · rw [hown] at hy
    exact ⟨(h.ownLive t y hy).1, (h.ownLive t y hy).2, fun u hu hm => hu (h.ownOne u t y hm hy)⟩
  · have hyr : y ≠ rep := fun he => hp (by rw [he]; rfl)
    rw [show ((s.store rep x).goto t (.addLink rep)).reNext y = s.reNext y from hne y hyr]
    refine (h.stale y hy hyq fun u => ?_).imp id fun ⟨u, hu⟩ => .inr ⟨u, ?_, hu⟩
    · by_cases hut : u = t
      · rw [hut, hl]
        exact hp
      · exact hpu u hut
    · rintro rfl
      rw [hl] at hu
      cases hu
  · have hhead : Ptr.head ≠ rep := ne_of_mem_of_not_mem h.head_mem hout
    show Function.update s.reNext rep x rep = Function.update s.reNext rep x .head
    rw [Function.update_self, Function.update_of_ne hhead, hx]

/-- `route_list.re_next = rep`. -/
theorem InvOf.addLink (h : InvOf s q) (hl : s.loc t = .addLink rep) :
    ∃ q', InvOf ((s.store .head rep).goto t .addUnlock) q' := by
  have hrep : rep ∈ own s t := by simp [own, hl, owned]
  obtain ⟨hrl, hout⟩ := h.ownLive t rep hrep
  have hx : s.reNext rep = s.reNext .head := by
    have := h.loc t
    rwa [hl] at this
  obtain ⟨r, rfl⟩ : ∃ r, q = .head :: r := by
    cases hq : q with
    | nil =>
      have := h.path
      rw [hq] at this
      cases this
    | cons a r =>
      have := h.path
      rw [hq] at this
      exact ⟨r, by rw [← this.1]⟩
  have hhr : Ptr.head ≠ rep := ne_of_mem_of_not_mem h.head_mem hout
  have hnd := List.nodup_cons.mp h.nodup
  have hmem : ∀ y, y ∈ Ptr.head :: rep :: r → y = rep ∨ y ∈ Ptr.head :: r := by
    intro y hy
    simp only [List.mem_cons] at hy ⊢
    tauto
  have hown : own s t = s.rlist t ++ [rep] := by rw [own, hl]; rfl
  have hownd := hown ▸ h.ownNodup t
  refine ⟨.head :: rep :: r, h.write (by rw [hl]; rfl) rfl rfl rfl rfl rfl rfl rfl ⟨rfl, ?_, ?_⟩ ?_
    (fun y hy => ?_) (fun u hu y hy hyq => ?_) ?_ (fun y hy => ?_) (fun y hy => nomatch hy)
    (fun y hy hyq _ hpu => ?_) trivial⟩
  · show Function.update s.reNext .head rep .head = rep
    exact Function.update_self ..
  · have hp := h.path.2
    rw [← hx] at hp
    show Path (Function.update s.reNext .head rep) (Function.update s.reNext .head rep rep) r .null
    rw [Function.update_of_ne hhr.symm]
    exact hp.update hnd.1
  · rw [List.nodup_cons, List.nodup_cons, List.mem_cons, not_or]
    exact ⟨⟨hhr, hnd.1⟩, fun hm => hout (List.mem_cons_of_mem _ hm), hnd.2⟩
  · rcases hmem y hy with rfl | hy
    · exact hrl
    · exact h.live y hy
  · rcases hmem y hyq with rfl | hyq
    · exact hu (h.ownOne u t y hy hrep)
    · exact (h.ownLive u y hy).2 hyq
  · simpa [owned] using (List.nodup_append.mp hownd).1
  · have hy' : y ∈ s.rlist t := by simpa [owned] using hy
    have hyo : y ∈ own s t := hown ▸ List.mem_append_left _ hy'
    refine ⟨(h.ownLive t y hyo).1, fun hyq => ?_, fun u hu hm => hu (h.ownOne u t y hm hyo)⟩
    rcases hmem y hyq with rfl | hyq
    · exact (List.nodup_append.mp hownd).2.2 y hy' y List.mem_cons_self rfl
    · exact (h.ownLive t y hyo).2 hyq
  · have hyr : y ≠ rep := fun he => hyq (by simp [he])
    have hyq' : y ∉ Ptr.head :: r := fun hm => hyq (by
      simp only [List.mem_cons] at hm ⊢
      tauto)
    have hyh : y ≠ .head := fun he => hyq' (by simp [he])
    have hny : ((s.store .head rep).goto t .addUnlock).reNext y = s.reNext y :=
      Function.update_of_ne hyh _ _
    rw [hny]
    refine (h.stale y hy hyq' fun u => ?_).imp id fun ⟨u, hu⟩ => .inr ⟨u, ?_, hu⟩
    · by_cases hut : u = t
      · rw [hut, hl]
        exact fun he => hyr (Option.some.inj he).symm
      · exact hpu u hut
    · rintro rfl
      rw [hl] at hu
      cases hu

/-- `*repp = rep->re_next` takes an entry out of the list. -/
theorem InvOf.unlink (h : InvOf s q) (hl : s.loc t = .unlink p rep x) :
    ∃ q', InvOf ((s.store p x).goto t (.poison rep)) q' := by
  have hlt := h.loc t
  rw [hl] at hlt
  obtain ⟨⟨l₁, l₂, rfl⟩, rfl⟩ := hlt
  have hnd := List.nodup_append.mp h.nodup
  have hnd₂ := List.nodup_cons.mp hnd.2.1
  have hnd₃ := List.nodup_cons.mp hnd₂.2
  have hp₁ : p ∉ l₁ := fun hm => hnd.2.2 p hm p List.mem_cons_self rfl
  have hp₂ : p ∉ l₂ := fun hm => hnd₂.1 (List.mem_cons_of_mem _ hm)
  have hrq : rep ∉ l₁ ++ p :: l₂ := by
    intro hm
    rcases List.mem_append.mp hm with hm | hm
    · exact hnd.2.2 rep hm rep (by simp) rfl
    · rcases List.mem_cons.mp hm with rfl | hm
      · exact hnd₂.1 List.mem_cons_self
      · exact hnd₃.1 hm
  have hrp : rep ≠ p := fun he => hrq (by simp [he])
  have hsub : ∀ y ∈ l₁ ++ p :: l₂, y ∈ l₁ ++ p :: rep :: l₂ := by
    intro y hy
    simp only [List.mem_append, List.mem_cons] at hy ⊢
    tauto
  have hback : ∀ y ∈ l₁ ++ p :: rep :: l₂, y ≠ rep → y ∈ l₁ ++ p :: l₂ := by
    intro y hy hne
    simp only [List.mem_append, List.mem_cons] at hy ⊢
    tauto
  have hmem : rep ∈ l₁ ++ p :: rep :: l₂ := by simp
  have hnot : ∀ u, rep ∉ own s u := fun u hm => (h.ownLive u rep hm).2 hmem
  have hown : own s t = s.rlist t := by rw [own, hl]; exact List.append_nil _
  obtain ⟨y, hy₁, rfl, hyr, hy₂⟩ := path_append.mp h.path
  have hpnext : ((s.store y (s.reNext rep)).goto t (.poison rep)).reNext y = s.reNext rep :=
    Function.update_self ..
  refine ⟨l₁ ++ y :: l₂, h.write (by rw [hl]; rfl) rfl rfl rfl rfl rfl rfl rfl
    (path_append.mpr ⟨y, hy₁.update hp₁, rfl, ?_⟩) ?_ (fun z hz => h.live z (hsub z hz))
    (fun u _ z hz hzq => (h.ownLive u z hz).2 (hsub z hzq)) ?_ (fun z hz => ?_)
    (fun z hz => nomatch hz) (fun z hz hzq _ hpu => ?_) ?_⟩
  · rw [hpnext]
    exact hy₂.update hp₂
  · exact List.nodup_append.mpr ⟨hnd.1, List.nodup_cons.mpr ⟨hp₂, hnd₃.2⟩, fun a ha b hb =>
      hnd.2.2 a ha b (by
        rcases List.mem_cons.mp hb with rfl | hb
        · simp
        · simp [hb])⟩
  · refine List.nodup_append.mpr ⟨hown ▸ h.ownNodup t, List.nodup_singleton _, fun a ha b hb => ?_⟩
    rintro rfl
    obtain rfl := List.mem_singleton.mp hb
    exact hnot t (hown ▸ ha)
  · rcases List.mem_append.mp hz with hz | hz
    · have hzo : z ∈ own s t := hown ▸ hz
      exact ⟨(h.ownLive t z hzo).1, fun hzq => (h.ownLive t z hzo).2 (hsub z hzq),
        fun u hu hm => hu (h.ownOne u t z hm hzo)⟩
    · obtain rfl := List.mem_singleton.mp hz
      exact ⟨h.live _ hmem, hrq, fun u _ => hnot u⟩
  · by_cases hzr : z = rep
    · exact .inr (.inl (by rw [hzr]))
    · have hzq' : z ∉ l₁ ++ y :: rep :: l₂ := fun hm => hzq (hback z hm hzr)
      have hzp : z ≠ y := fun he => hzq (by simp [he])
      have hnz : ((s.store y (s.reNext rep)).goto t (.poison rep)).reNext z = s.reNext z :=
        Function.update_of_ne hzp _ _
      rw [hnz]
      refine (h.stale z hz hzq' fun u => ?_).imp id fun ⟨u, hu⟩ => .inr ⟨u, ?_, hu⟩
      · by_cases hut : u = t
        · rw [hut, hl]
          exact fun he => nomatch he
        · exact hpu u hut
      · rintro rfl
        rw [hl] at hu
        cases hu
  · have hnr : ((s.store y (s.reNext rep)).goto t (.poison rep)).reNext rep = s.reNext rep :=
      Function.update_of_ne hrp _ _
    show _ ∨ _
    rw [hnr]
    rcases h.next_mem hmem with hn | ⟨l₃, l₄, hq⟩
    · exact .inl hn
    · have hnm : s.reNext rep ∈ l₁ ++ y :: rep :: l₂ := by rw [hq]; simp
      have hne : s.reNext rep ≠ rep := by
        intro he
        have hnd' := h.nodup
        rw [hq, he] at hnd'
        exact (List.nodup_cons.mp (List.nodup_append.mp hnd').2.1).1 List.mem_cons_self
      exact .inr (hback _ hnm hne)

/-- `rep->re_next = HAZPTR_POISON`. -/
theorem InvOf.poison (h : InvOf s q) (hl : s.loc t = .poison rep) :
    InvOf ((s.store rep .poison).goto t (.delUnlock (some rep))) q := by
  have hrep : rep ∈ own s t := by simp [own, hl, owned]
  have hout := (h.ownLive t rep hrep).2
  have hown : s.rlist t ++ owned (.delUnlock (some rep)) = own s t := by rw [own, hl]; rfl
  refine h.write (by rw [hl]; rfl) rfl rfl rfl rfl rfl rfl rfl (h.path.update hout) h.nodup h.live
    (fun u _ x hx => (h.ownLive u x hx).2) (hown ▸ h.ownNodup t) (fun y hy => ?_)
    (fun y hy => nomatch hy) (fun y hy hyq _ hpu => ?_) trivial
  · rw [hown] at hy
    exact ⟨(h.ownLive t y hy).1, (h.ownLive t y hy).2, fun u hu hm => hu (h.ownOne u t y hm hy)⟩
  · by_cases hyr : y = rep
    · subst hyr
      exact .inl (Function.update_self ..)
    · have hny : ((s.store rep .poison).goto t (.delUnlock (some rep))).reNext y = s.reNext y :=
        Function.update_of_ne hyr _ _
      rw [hny]
      refine (h.stale y hy hyq fun u => ?_).imp id fun ⟨u, hu⟩ => .inr ⟨u, ?_, hu⟩
      · by_cases hut : u = t
        · rw [hut, hl]
          exact fun he => nomatch he
        · exact hpu u hut
      · rintro rfl
        rw [hl] at hu
        injection hu with hu
        exact hyr hu.symm

/-! ### Hazard pointers -/

theorem myHazptr_zero (t : Fin n) : myHazptr t 0 = K * t := rfl

theorem myHazptr_ne (hu : u ≠ t) : myHazptr u 0 ≠ myHazptr t 0 := by
  intro he
  have hK : 0 < K := by decide
  exact hu (Fin.ext (Nat.eq_of_mul_eq_mul_left hK he))

/-- `WRITE_ONCE(hp->p, tmp)` gives up what the hazard pointer covered before. -/
theorem InvOf.record {addr : Word} (h : InvOf s q) (hl : s.loc t = .record addr p tmp) :
    InvOf ((s.setHP (myHazptr t 0) tmp).goto t (.check addr p tmp)) q := by
  set s' := (s.setHP (myHazptr t 0) tmp).goto t (.check addr p tmp) with hs'
  have hloc : s'.loc = Function.update s.loc t (.check addr p tmp) := rfl
  have hlt := h.loc t
  rw [hl] at hlt
  have hself : s'.HP (myHazptr t 0) = tmp := Function.update_self ..
  have hHP : ∀ i, i ≠ myHazptr t 0 → s'.HP i = s.HP i := fun i hi => Function.update_of_ne hi _ _
  have hown : ∀ u, own s' u = own s u := fun u =>
    congrArg _ (proj_update hloc owned (by rw [hl]; rfl) u)
  have hprivAll : ∀ u, priv (s'.loc u) = priv (s.loc u) := proj_update hloc priv (by rw [hl]; rfl)
  have hguardAll : ∀ i x, Guard s i x → Guard s' i x := fun i x hg =>
    forall_update (P := fun u y => GuardAt i x (s.rlist u) y) hloc trivial fun u _ => hg u
  refine
    { path := h.path
      nodup := h.nodup
      live := h.live
      dead := h.dead
      fresh := h.fresh
      lock := h.lock.stay hloc (by rw [hl]; rfl)
      ownNodup := fun u => hown u ▸ h.ownNodup u
      ownLive := fun u x hx => h.ownLive u x (hown u ▸ hx)
      ownOne := fun u v x hu hv => h.ownOne u v x (hown u ▸ hu) (hown v ▸ hv)
      stale := fun x hx hq hp => ?_
      slots := fun i hi => ?_
      loc := forall_update (P := fun u x => LocInv s' q u x) hloc ⟨hlt, hself⟩ fun u hu => ?_
      reads := fun u => ?_ }
  · refine (h.stale x hx hq fun u => hprivAll u ▸ hp u).imp id fun ⟨u, hu⟩ => ⟨u, ?_⟩
    rw [update_ne hloc, hu]
    rintro rfl
    rw [hl] at hu
    cases hu
  · rw [hHP, h.slots i hi]
    rintro rfl
    exact hi (by rw [myHazptr_zero, Nat.mul_mod_right])
  · have hlu := h.loc u
    cases hu' : s.loc u with
    | check =>
      rw [hu'] at hlu
      exact ⟨hlu.1, (hHP _ (myHazptr_ne hu)).trans hlu.2⟩
    | idle | load | record | readAddr | readFreed | readIface | aborted | addLock | addLoad | addStore
    | addLink | addUnlock | delLock | delLoad | delAddr | delNext | unlink | poison | delUnlock
    | freeLater | scan | sweep =>
      rw [hu'] at hlu
      exact hlu
  · by_cases hut : u = t
    · subst hut
      rw [update_self hloc]
      intro x hx
      obtain ⟨hlx, hp, -⟩ := h.reads u x (by rw [hl]; exact hx)
      exact ⟨hlx, fun v => hprivAll v ▸ hp v, .inr (.inl fun he => nomatch he)⟩
    · exact (h.reads u).frame (fun x _ hx => hx) (fun v x _ hv => hprivAll v ▸ hv)
        (hHP _ (myHazptr_ne hut)) (update_ne hloc hut) fun x _ _ hg => hguardAll _ x hg

/-- **The second read of the link**: what it leads to is in the list, so it is
not retired, and any scan that starts later sees the hazard pointer. -/
theorem InvOf.check {addr : Word} (h : InvOf s q) (hl : s.loc t = .check addr p tmp)
    (he : s.reNext p = tmp) : InvOf (s.goto t (.readAddr addr tmp)) q := by
  have hlt := h.loc t
  rw [hl] at hlt
  obtain ⟨⟨-, hnull, hpoison⟩, hHP⟩ := hlt
  obtain ⟨hlive, hpriv, -⟩ := h.reads t p (by rw [hl]; rfl)
  have hmem : tmp ∈ q := by
    rcases h.next_published hlive hpriv with hn | hn | ⟨hn, -⟩
    · exact absurd (he.symm.trans hn) hnull
    · exact absurd (he.symm.trans hn) hpoison
    · exact he ▸ hn
  refine h.move rfl rfl rfl rfl rfl rfl (h.lock.stay rfl (by rw [hl]; rfl)) (by rw [hl]; rfl)
    (by rw [hl]; rfl) (by rw [hl]; exact fun x hx => nomatch hx) trivial (fun x hx => ?_)
    fun _ _ _ _ _ => trivial
  obtain rfl : tmp = x := Option.some.inj hx
  exact ⟨h.live _ hmem, h.not_priv hmem, .inr (.inr ⟨hHP, h.guard_mem hmem⟩)⟩

/-! ### Entries -/

/-- `malloc`. -/
theorem InvOf.alloc {a : ℕ} {addr iface : Word} (h : InvOf s q) (hl : s.loc t = .idle)
    (hnew : s.live (.entry a) = false) :
    InvOf ((s.alloc (.entry a) addr iface).goto t (.addLock (.entry a))) q := by
  set s' := (s.alloc (.entry a) addr iface).goto t (.addLock (.entry a)) with hs'
  have hloc : s'.loc = Function.update s.loc t (.addLock (.entry a)) := rfl
  have hself : s'.live (.entry a) = true := Function.update_self ..
  have hother : ∀ x, x ≠ .entry a → s'.live x = s.live x := fun x hx =>
    Function.update_of_ne hx _ _
  have hne : ∀ x, s.live x = true → x ≠ .entry a := by
    rintro x hx rfl
    rw [hnew] at hx
    cases hx
  have hlive : ∀ x, s.live x = true → s'.live x = true := fun x hx =>
    (hother x (hne x hx)).trans hx
  have hback : ∀ x, x ≠ .entry a → s'.live x = true → s.live x = true := fun x hx hl =>
    hother x hx ▸ hl
  have hownt : own s' t = s.rlist t ++ [.entry a] := by
    rw [own, update_self hloc]
    rfl
  have hownt' : own s t = s.rlist t := by rw [own, hl]; exact List.append_nil _
  have hownu : ∀ u, u ≠ t → own s' u = own s u := fun u hu => by rw [own, update_ne hloc hu]; rfl
  have hnot : ∀ u, .entry a ∉ own s u := fun u hm => hne _ (h.ownLive u _ hm).1 rfl
  have hmem : ∀ u x, x ∈ own s' u → u = t ∧ x = .entry a ∨ x ∈ own s u := by
    intro u x hx
    by_cases hu : u = t
    · subst hu
      rw [hownt, List.mem_append, List.mem_singleton] at hx
      rw [hownt']
      exact hx.symm.imp (fun hx => ⟨rfl, hx⟩) id
    · rw [hownu u hu] at hx
      exact .inr hx
  refine
    { path := h.path
      nodup := h.nodup
      live := fun x hx => hlive x (h.live x hx)
      dead := ⟨(hother _ (by simp)).trans h.dead.1, (hother _ (by simp)).trans h.dead.2⟩
      fresh := fun x hx => ?_
      lock := h.lock.stay hloc (by rw [hl]; rfl)
      ownNodup := fun u => ?_
      ownLive := fun u x hx => ?_
      ownOne := fun u v x hu hv => ?_
      stale := fun x hx hq hp => ?_
      slots := h.slots
      loc := forall_update (P := fun u x => LocInv s' q u x) hloc trivial fun u _ => ?_
      reads := fun u => ?_ }
  · by_cases hxa : x = .entry a
    · rw [hxa]
      exact Function.update_self ..
    · exact (Function.update_of_ne hxa _ _).trans (h.fresh x (hback x hxa hx))
  · by_cases hu : u = t
    · subst hu
      rw [hownt]
      refine List.nodup_append.mpr ⟨hownt' ▸ h.ownNodup u, List.nodup_singleton _, fun x hx y hy => ?_⟩
      rintro rfl
      exact hnot u (hownt' ▸ List.mem_singleton.mp hy ▸ hx)
    · rw [hownu u hu]
      exact h.ownNodup u
  · rcases hmem u x hx with ⟨-, rfl⟩ | hx
    · exact ⟨hself, fun hm => hne _ (h.live _ hm) rfl⟩
    · exact ⟨hlive x (h.ownLive u x hx).1, (h.ownLive u x hx).2⟩
  · rcases hmem u x hu with ⟨rfl, rfl⟩ | hu'
    · rcases hmem v _ hv with ⟨rfl, -⟩ | hv'
      · rfl
      · exact absurd hv' (hnot v)
    · rcases hmem v x hv with ⟨-, rfl⟩ | hv'
      · exact absurd hu' (hnot u)
      · exact h.ownOne u v x hu' hv'
  · by_cases hxa : x = .entry a
    · exact absurd (by rw [update_self hloc, hxa]; rfl) (hp t)
    · refine (h.stale x (hback x hxa hx) hq fun u hu => ?_).imp id fun ⟨u, hu⟩ => ⟨u, ?_⟩
      · by_cases hut : u = t
        · rw [hut, hl] at hu
          cases hu
        · exact hp u (by rw [update_ne hloc hut, hu])
      · rw [update_ne hloc, hu]
        rintro rfl
        rw [hl] at hu
        cases hu
  · have hlu := h.loc u
    cases hu' : s.loc u <;> rw [hu'] at hlu <;> exact hlu
  · by_cases hut : u = t
    · subst hut
      rw [update_self hloc]
      exact fun x hx => nomatch hx
    · refine (h.reads u).frame (fun x _ hx => hlive x hx) (fun v x hx hv => ?_) rfl
        (update_ne hloc hut) fun x _ _ hg => ?_
      · by_cases hvt : v = t
        · rw [hvt, update_self hloc] at hv
          exact absurd (Option.some.inj hv).symm (hne x hx)
        · rwa [update_ne hloc hvt] at hv
      · exact forall_update (P := fun v y => GuardAt _ x (s.rlist v) y) hloc trivial fun v _ => hg v

/-- Entries that a thread owns go from one of its lists to another. -/
theorem InvOf.hand {rl : List Ptr} (h : InvOf s q) (hloc : s'.loc = Function.update s.loc t l)
    (hnext : s'.reNext = s.reNext) (hlive : s'.live = s.live) (hfreed : s'.reFreed = s.reFreed)
    (hHP : s'.HP = s.HP) (hrlist : s'.rlist = Function.update s.rlist t rl)
    (hlock : s'.routelock = s.routelock) (hholds : holds l = holds (s.loc t))
    (hown : (rl ++ owned l).Perm (own s t)) (hpriv : priv l = priv (s.loc t))
    (hpoison : ∀ x, s.loc t ≠ .poison x) (hl : LocInv s q t l) (huse : uses l = none)
    (hguard : ∀ (u : Fin n) x, s.live x = true → s.HP (myHazptr u 0) = x →
      GuardAt (myHazptr u 0) x (s.rlist t) (s.loc t) → GuardAt (myHazptr u 0) x rl l) :
    InvOf s' q := by
  have hownt : (own s' t).Perm (own s t) := by
    rw [own, hrlist, Function.update_self, update_self hloc]
    exact hown
  have hownu : ∀ u, (own s' u).Perm (own s u) := by
    intro u
    by_cases hu : u = t
    · exact hu ▸ hownt
    · rw [own, hrlist, Function.update_of_ne hu, update_ne hloc hu]
      exact List.Perm.refl _
  have hprivAll : ∀ u, priv (s'.loc u) = priv (s.loc u) := proj_update hloc priv hpriv
  have hlocInv : ∀ u x, LocInv s q u x → LocInv s' q u x := by
    intro u x hx
    cases x <;> simp only [LocInv, hnext, hHP] at hx ⊢ <;> exact hx
  refine
    { path := hnext ▸ h.path
      nodup := h.nodup
      live := hlive ▸ h.live
      dead := hlive ▸ h.dead
      fresh := by rw [hlive, hfreed]; exact h.fresh
      lock := hlock ▸ h.lock.stay hloc hholds
      ownNodup := fun u => (hownu u).nodup_iff.mpr (h.ownNodup u)
      ownLive := fun u x hx => hlive ▸ h.ownLive u x ((hownu u).mem_iff.mp hx)
      ownOne := fun u v x hu hv => h.ownOne u v x ((hownu u).mem_iff.mp hu) ((hownu v).mem_iff.mp hv)
      stale := fun x hx hq hp => ?_
      slots := hHP ▸ h.slots
      loc := forall_update (P := fun u x => LocInv s' q u x) hloc (hlocInv t l hl)
        fun u _ => hlocInv u _ (h.loc u)
      reads := fun u => ?_ }
  · rw [hnext]
    refine (h.stale x (hlive ▸ hx) hq fun u => hprivAll u ▸ hp u).imp id fun ⟨u, hu⟩ => ⟨u, ?_⟩
    rw [update_ne hloc, hu]
    rintro rfl
    exact hpoison x hu
  · by_cases hut : u = t
    · subst hut
      rw [update_self hloc]
      intro x hx
      rw [huse] at hx
      cases hx
    · refine (h.reads u).frame (fun x _ hx => hlive ▸ hx) (fun v x _ hv => hprivAll v ▸ hv)
        (by rw [hHP]) (update_ne hloc hut) fun x hx hh hg v => ?_
      by_cases hvt : v = t
      · rw [hvt, hrlist, Function.update_self, update_self hloc]
        exact hguard u x hx hh (hvt ▸ hg v)
      · rw [hrlist, Function.update_of_ne hvt, update_ne hloc hvt]
        exact hg v

/-- **`hazptr_free(cur)`**, while no link of `cur` is going to be read again. -/
theorem InvOf.free {cur : Ptr} {pl tl : List Ptr} (h : InvOf s q) (hl : s.loc t = .sweep pl (cur :: tl))
    (hcur : cur ∉ pl) (hok : ∀ u, rechecks (s.loc u) ≠ some cur) :
    InvOf ((s.free cur).goto t (.sweep pl tl)) q := by
  set s' := (s.free cur).goto t (.sweep pl tl) with hs'
  have hloc : s'.loc = Function.update s.loc t (.sweep pl tl) := rfl
  have hownt : own s t = s.rlist t ++ cur :: tl := by rw [own, hl]; rfl
  have hownt' : own s' t = s.rlist t ++ tl := by rw [own, update_self hloc]; rfl
  have hmem : cur ∈ own s t := by rw [hownt]; simp
  have hnd := hownt ▸ h.ownNodup t
  have hout := (h.ownLive t cur hmem).2
  have hcur' : cur ∉ own s' t := by
    rw [hownt']
    rw [List.nodup_append, List.nodup_cons] at hnd
    intro hm
    rcases List.mem_append.mp hm with hm | hm
    · exact hnd.2.2 cur hm cur List.mem_cons_self rfl
    · exact hnd.2.1.1 hm
  have hownu : ∀ u, u ≠ t → own s' u = own s u := fun u hu => by rw [own, update_ne hloc hu]; rfl
  have hsub : ∀ u x, x ∈ own s' u → x ∈ own s u ∧ x ≠ cur := by
    intro u x hx
    by_cases hu : u = t
    · subst hu
      refine ⟨?_, fun he => hcur' (he ▸ hx)⟩
      rw [hownt'] at hx
      rw [hownt]
      simp only [List.mem_append, List.mem_cons] at hx ⊢
      tauto
    · rw [hownu u hu] at hx
      exact ⟨hx, fun he => hu (h.ownOne u t x hx (he ▸ hmem))⟩
  have hlive : ∀ x, x ≠ cur → s'.live x = s.live x := fun x hx => Function.update_of_ne hx _ _
  have hdead : s'.live cur = false := Function.update_self ..
  have hback : ∀ x, s'.live x = true → s.live x = true ∧ x ≠ cur := by
    intro x hx
    have hne : x ≠ cur := by
      rintro rfl
      rw [hdead] at hx
      cases hx
    exact ⟨hlive x hne ▸ hx, hne⟩
  have hprivAll : ∀ u, priv (s'.loc u) = priv (s.loc u) := proj_update hloc priv (by rw [hl]; rfl)
  have hguardAll : ∀ i x, Guard s i x → Guard s' i x := by
    intro i x hg
    refine forall_update (P := fun u y => GuardAt i x (s.rlist u) y) hloc ?_ fun u _ => hg u
    have hgt := hg t
    rw [hl] at hgt
    exact fun hm => hgt (List.mem_cons_of_mem _ hm)
  have husers : ∀ u x, uses (s.loc u) = some x → x ≠ cur := by
    rintro u x hx rfl
    obtain ⟨-, -, hcov⟩ := h.reads u x hx
    rcases hcov with rfl | hre | ⟨-, hg⟩
    · exact hout h.head_mem
    · have hxr : rechecks (s.loc u) = some x := by
        revert hre hx
        cases s.loc u <;> simp [rechecks, uses]
      exact hok u hxr
    · have hgt := hg t
      rw [hl] at hgt
      exact hcur (hgt List.mem_cons_self)
  refine
    { path := h.path
      nodup := h.nodup
      live := fun x hx => by rw [hlive x (ne_of_mem_of_not_mem hx hout)]; exact h.live x hx
      dead := ⟨?_, ?_⟩
      fresh := fun x hx => ?_
      lock := h.lock.stay hloc (by rw [hl]; rfl)
      ownNodup := fun u => ?_
      ownLive := fun u x hx => ?_
      ownOne := fun u v x hu hv => h.ownOne u v x (hsub u x hu).1 (hsub v x hv).1
      stale := fun x hx hq hp => ?_
      slots := h.slots
      loc := forall_update (P := fun u x => LocInv s' q u x) hloc trivial fun u _ => ?_
      reads := fun u => ?_ }
  · by_cases hc : Ptr.null = cur
    · rw [hc]
      exact hdead
    · rw [hlive _ hc]
      exact h.dead.1
  · by_cases hc : Ptr.poison = cur
    · rw [hc]
      exact hdead
    · rw [hlive _ hc]
      exact h.dead.2
  · obtain ⟨hx, hne⟩ := hback x hx
    exact (Function.update_of_ne hne _ _).trans (h.fresh x hx)
  · by_cases hu : u = t
    · subst hu
      rw [hownt']
      exact hnd.sublist ((List.sublist_cons_self _ _).append_left _)
    · rw [hownu u hu]
      exact h.ownNodup u
  · obtain ⟨hx, hne⟩ := hsub u x hx
    rw [hlive x hne]
    exact h.ownLive u x hx
  · obtain ⟨hx, -⟩ := hback x hx
    refine (h.stale x hx hq fun u => hprivAll u ▸ hp u).imp id fun ⟨u, hu⟩ => ⟨u, ?_⟩
    rw [update_ne hloc, hu]
    rintro rfl
    rw [hl] at hu
    cases hu
  · have hlu := h.loc u
    cases hu' : s.loc u <;> rw [hu'] at hlu <;> exact hlu
  · by_cases hut : u = t
    · subst hut
      rw [update_self hloc]
      exact fun x hx => nomatch hx
    · exact (h.reads u).frame (fun x hx hlx => by rw [hlive x (husers u x hx)]; exact hlx)
        (fun v x _ hv => hprivAll v ▸ hv) rfl (update_ne hloc hut) fun x _ _ hg => hguardAll _ x hg

/-! ### Steps -/

/-- What a place in a lookup is not. -/
theorem uses_spec (hx : uses l = some x) :
    holds l = false ∧ owned l = [] ∧ ∀ i y rl, GuardAt i y rl l := by
  cases l <;> simp [uses] at hx <;> simp [holds, owned, GuardAt]

/-- A lookup goes on to a place where it accesses `x`. -/
theorem InvOf.look (h : InvOf s q) (hh : holds (s.loc t) = false) (ho : owned (s.loc t) = [])
    (hx : uses l = some x) (hl : LocInv s q t l) (hlive : s.live x = true)
    (hpriv : ∀ u, priv (s.loc u) ≠ some x)
    (hcov : x = .head ∨ rechecks l ≠ none ∨ s.HP (myHazptr t 0) = x ∧ Guard s (myHazptr t 0) x) :
    InvOf (s.goto t l) q := by
  obtain ⟨hlh, hlo, hg⟩ := uses_spec hx
  have hp : ∀ y : Loc, owned y = [] → priv y = none := by
    intro y hy
    by_contra hne
    obtain ⟨z, hz⟩ := Option.ne_none_iff_exists'.mp hne
    have hm := priv_owned hz
    rw [hy] at hm
    cases hm
  refine h.move rfl rfl rfl rfl rfl rfl (h.lock.stay rfl (hlh.trans hh.symm)) (hlo.trans ho.symm)
    ((hp l hlo).trans (hp _ ho).symm) (fun y hy => ?_) hl (fun y hy => ?_) fun i y _ _ _ => hg i y _
  · rw [hy] at ho
    cases ho
  · obtain rfl : x = y := Option.some.inj (hx.symm.trans hy)
    exact ⟨hlive, hpriv, hcov⟩

/-- A lookup goes to the head of the list. -/
theorem InvOf.restart {addr : Word} (h : InvOf s q) (hh : holds (s.loc t) = false)
    (ho : owned (s.loc t) = []) : InvOf (s.goto t (.load addr .head)) q :=
  h.look hh ho rfl trivial (h.live _ h.head_mem) (h.not_priv h.head_mem) (.inl rfl)

/-- A lookup goes on with the cell it is at. -/
theorem InvOf.again (h : InvOf s q) (hx : uses (s.loc t) = some x)
    (hr : rechecks (s.loc t) = none) (hl : LocInv s q t l) (hxl : uses l = some x) :
    InvOf (s.goto t l) q := by
  obtain ⟨hlive, hpriv, hcov⟩ := h.reads t x hx
  obtain ⟨hh, ho, -⟩ := uses_spec hx
  refine h.look hh ho hxl hl hlive hpriv ?_
  rcases hcov with hhead | hre | hcov
  · exact .inl hhead
  · exact absurd hr hre
  · exact .inr (.inr hcov)

/-- A lookup returns. -/
theorem InvOf.answer {v : Word} (h : InvOf s q) (hx : uses (s.loc t) = some x) :
    InvOf (s.answer t v) q := by
  obtain ⟨hh, ho, -⟩ := uses_spec hx
  have hp : priv (s.loc t) = none := by
    cases hl : s.loc t <;> rw [hl] at hx <;> simp [uses] at hx <;> rfl
  have hpoison : ∀ y, s.loc t ≠ .poison y := by
    intro y hy
    rw [hy] at hx
    cases hx
  exact h.walk rfl rfl rfl rfl rfl rfl (h.lock.stay rfl hh.symm) ho.symm hp.symm hpoison trivial rfl
    fun _ _ _ => trivial

/-- The holder of the lock goes on. -/
theorem InvOf.locked (h : InvOf s q) (hh : holds (s.loc t) = true) (hlh : holds l = true)
    (ho : owned l = owned (s.loc t)) (hp : priv l = priv (s.loc t))
    (hpoison : ∀ x, s.loc t ≠ .poison x) (hl : LocInv s q t l) : InvOf (s.goto t l) q := by
  obtain ⟨huse, hg⟩ := holds_spec hlh
  exact h.walk rfl rfl rfl rfl rfl rfl (h.lock.stay rfl (hlh.trans hh.symm)) ho hp hpoison hl huse hg

/-- `spin_lock(&routelock)`. -/
theorem InvOf.lockStep (h : InvOf s q) (hn : s.routelock = none) (hlh : holds l = true)
    (ho : owned l = owned (s.loc t)) (hp : priv l = priv (s.loc t))
    (hpoison : ∀ x, s.loc t ≠ .poison x) (hl : LocInv s q t l) :
    InvOf ({ s with routelock := some t }.goto t l) q := by
  obtain ⟨huse, hg⟩ := holds_spec hlh
  exact h.walk rfl rfl rfl rfl rfl rfl (LockedBy.take (hn ▸ h.lock) rfl hlh) ho hp hpoison hl huse hg

/-- `spin_unlock(&routelock)`. -/
theorem InvOf.unlock (h : InvOf s q) (hh : holds (s.loc t) = true) (hlh : holds l = false)
    (ho : owned l = owned (s.loc t)) (hp : priv l = priv (s.loc t))
    (hpoison : ∀ x, s.loc t ≠ .poison x) (hl : LocInv s q t l) (huse : uses l = none)
    (hg : ∀ i x rl, GuardAt i x rl l) : InvOf ({ s with routelock := none }.goto t l) q :=
  h.walk rfl rfl rfl rfl rfl rfl (h.lock.drop rfl hh hlh) ho hp hpoison hl huse hg

/-- `hazptr_free_later` before the scan. -/
theorem InvOf.retire (h : InvOf s q) (hl : s.loc t = .freeLater rep) (hlo : owned l = [])
    (hlh : holds l = false) (hpl : priv l = none) (hi : LocInv s q t l) (huse : uses l = none)
    (hg : ∀ i x rl, GuardAt i x rl l) : InvOf ((s.setRlist t (rep :: s.rlist t)).goto t l) q := by
  refine h.hand rfl rfl rfl rfl rfl rfl rfl (by rw [hl, hlh]; rfl) ?_ (by rw [hl, hpl]; rfl)
    (by rw [hl]; exact fun x hx => nomatch hx) hi huse fun _ _ _ _ _ => hg _ _ _
  rw [own, hl, hlo, List.append_nil]
  exact (List.perm_append_singleton rep (s.rlist t)).symm

/-- A scan reads a hazard pointer. -/
theorem InvOf.scanRead {plist : List Ptr} (h : InvOf s q) (hl : s.loc t = .scan i plist) :
    InvOf (s.goto t (.scan (i + 1) (if s.HP i = .null then plist else plist ++ [s.HP i]))) q := by
  refine h.move rfl rfl rfl rfl rfl rfl (h.lock.stay rfl (by rw [hl]; rfl)) (by rw [hl]; rfl)
    (by rw [hl]; rfl) (by rw [hl]; exact fun x hx => nomatch hx) trivial (fun x hx => nomatch hx)
    fun j x hx hj hg hm hji => ?_
  rw [hl] at hg
  rcases Nat.lt_succ_iff_lt_or_eq.mp hji with hlt | rfl
  · have hxp := hg hm hlt
    split
    · exact hxp
    · exact List.mem_append_left _ hxp
  · have hne : s.HP j ≠ .null := by
      intro he
      rw [← hj, he, h.dead.1] at hx
      cases hx
    rw [if_neg hne, hj]
    exact List.mem_append_right _ List.mem_cons_self

/-- A scan has read all the hazard pointers. -/
theorem InvOf.scanEnd {plist : List Ptr} (h : InvOf s q) (hl : s.loc t = .scan i plist)
    (hi : H n ≤ i) : InvOf ((s.setRlist t []).goto t (.sweep plist (s.rlist t))) q := by
  refine h.hand rfl rfl rfl rfl rfl rfl rfl (by rw [hl]; rfl) ?_ (by rw [hl]; rfl)
    (by rw [hl]; exact fun x hx => nomatch hx) trivial rfl fun u x _ _ hg hm => ?_
  · rw [own, hl]
    exact List.Perm.of_eq (List.append_nil _).symm
  · rw [hl] at hg
    refine hg hm (lt_of_lt_of_le ?_ hi)
    have hK : 0 < K := by decide
    exact Nat.mul_lt_mul_of_pos_left u.isLt hK

/-- The entry that a scan has seen stays retired. -/
theorem InvOf.sweepKeep {cur : Ptr} {pl tl : List Ptr} (h : InvOf s q)
    (hl : s.loc t = .sweep pl (cur :: tl)) :
    InvOf ((s.setRlist t (cur :: s.rlist t)).goto t (.sweep pl tl)) q := by
  refine h.hand rfl rfl rfl rfl rfl rfl rfl (by rw [hl]; rfl) ?_ (by rw [hl]; rfl)
    (by rw [hl]; exact fun x hx => nomatch hx) trivial rfl fun u x _ _ hg hm => ?_
  · rw [own, hl]
    exact List.perm_middle.symm
  · rw [hl] at hg
    exact hg (List.mem_cons_of_mem _ hm)

/-- A step of a lookup. -/
theorem inv_lookup (h : InvOf s q) (hx : uses (s.loc t) = some x)
    (hn : stepThread t s = some s') : InvOf s' q := by
  obtain ⟨hh, ho, -⟩ := uses_spec hx
  unfold stepThread at hn
  cases hl : s.loc t with
  | load addr p =>
    obtain ⟨hlive, hpriv, -⟩ := h.reads t p (by rw [hl]; rfl)
    have hlink := h.next_published hlive hpriv
    rw [hl] at hn
    dsimp only at hn
    split at hn <;> obtain rfl := Option.some.inj hn
    · exact h.answer hx
    · exact h.restart hh ho
    · rename_i tmp hnull hpoison
      have hne : s.reNext p ≠ p := by
        rcases hlink with hn | hn | hn
        · exact absurd hn hnull
        · exact absurd hn hpoison
        · exact hn.2
      exact h.again (by rw [hl]; rfl) (by rw [hl]; rfl) ⟨hne, hnull, hpoison⟩ rfl
  | record addr p tmp =>
    rw [hl] at hn
    obtain rfl := Option.some.inj hn
    exact h.record hl
  | check addr p tmp =>
    rw [hl] at hn
    obtain rfl := Option.some.inj hn
    split
    · rename_i he
      exact h.check hl he
    · exact h.restart hh ho
  | readAddr addr rep =>
    rw [hl] at hn
    obtain rfl := Option.some.inj hn
    split
    · exact h.again (x := rep) (by rw [hl]; rfl) (by rw [hl]; rfl) trivial rfl
    · exact h.again (x := rep) (by rw [hl]; rfl) (by rw [hl]; rfl) trivial rfl
  | readFreed rep =>
    rw [hl] at hn
    obtain rfl := Option.some.inj hn
    rw [h.fresh rep (h.reads t rep (by rw [hl]; rfl)).1]
    exact h.again (x := rep) (by rw [hl]; rfl) (by rw [hl]; rfl) trivial rfl
  | readIface rep =>
    rw [hl] at hn
    obtain rfl := Option.some.inj hn
    exact h.answer hx
  | idle | aborted | addLock | addLoad | addStore | addLink | addUnlock | delLock | delLoad | delAddr
  | delNext | unlink | poison | delUnlock | freeLater | scan | sweep =>
    rw [hl] at hx
    cases hx

/-- A step of the thread that holds `routelock`. -/
theorem inv_locked (h : InvOf s q) (hh : holds (s.loc t) = true)
    (hn : stepThread t s = some s') : ∃ q', InvOf s' q' := by
  have hlt := h.loc t
  unfold stepThread at hn
  cases hl : s.loc t with
  | addLoad rep =>
    rw [hl] at hn
    obtain rfl := Option.some.inj hn
    exact ⟨q, h.locked hh rfl (by rw [hl]; rfl) (by rw [hl]; rfl)
      (by rw [hl]; exact fun x hx => nomatch hx) rfl⟩
  | addStore rep x =>
    rw [hl] at hn
    obtain rfl := Option.some.inj hn
    exact ⟨q, h.addStore hl⟩
  | addLink rep =>
    rw [hl] at hn
    obtain rfl := Option.some.inj hn
    exact h.addLink hl
  | addUnlock =>
    rw [hl] at hn
    obtain rfl := Option.some.inj hn
    exact ⟨q, h.unlock hh rfl (by rw [hl]; rfl) (by rw [hl]; rfl)
      (by rw [hl]; exact fun x hx => nomatch hx) trivial rfl fun _ _ _ => trivial⟩
  | delLoad addr p =>
    rw [hl] at hn hlt
    dsimp only at hn
    split at hn <;> obtain rfl := Option.some.inj hn
    · exact ⟨q, h.locked hh rfl (by rw [hl]; rfl) (by rw [hl]; rfl)
        (by rw [hl]; exact fun x hx => nomatch hx) trivial⟩
    · rename_i hnull
      exact ⟨q, h.locked hh rfl (by rw [hl]; rfl) (by rw [hl]; rfl)
        (by rw [hl]; exact fun x hx => nomatch hx) ((h.next_mem hlt).resolve_left hnull)⟩
  | delAddr addr p rep =>
    rw [hl] at hn hlt
    obtain rfl := Option.some.inj hn
    split
    · exact ⟨q, h.locked hh rfl (by rw [hl]; rfl) (by rw [hl]; rfl)
        (by rw [hl]; exact fun x hx => nomatch hx) hlt⟩
    · obtain ⟨l₁, l₂, rfl⟩ := hlt
      exact ⟨_, h.locked hh rfl (by rw [hl]; rfl) (by rw [hl]; rfl)
        (by rw [hl]; exact fun x hx => nomatch hx) (show rep ∈ _ by simp)⟩
  | delNext p rep =>
    rw [hl] at hn hlt
    obtain rfl := Option.some.inj hn
    exact ⟨q, h.locked hh rfl (by rw [hl]; rfl) (by rw [hl]; rfl)
      (by rw [hl]; exact fun x hx => nomatch hx) ⟨hlt, rfl⟩⟩
  | unlink p rep x =>
    rw [hl] at hn
    obtain rfl := Option.some.inj hn
    exact h.unlink hl
  | poison rep =>
    rw [hl] at hn
    obtain rfl := Option.some.inj hn
    exact ⟨q, h.poison hl⟩
  | delUnlock rep =>
    rw [hl] at hn
    cases rep with
    | none =>
      obtain rfl := Option.some.inj hn
      exact ⟨q, h.unlock hh rfl (by rw [hl]; rfl) (by rw [hl]; rfl)
        (by rw [hl]; exact fun x hx => nomatch hx) trivial rfl fun _ _ _ => trivial⟩
    | some rep =>
      obtain rfl := Option.some.inj hn
      exact ⟨q, h.unlock hh rfl (by rw [hl]; rfl) (by rw [hl]; rfl)
        (by rw [hl]; exact fun x hx => nomatch hx) trivial rfl fun _ _ _ => trivial⟩
  | idle | aborted | load | record | check | readAddr | readFreed | readIface | addLock | delLock
  | freeLater | scan | sweep =>
    rw [hl] at hh
    cases hh

/-- A step of a thread that is in no lookup and does not hold the lock. -/
theorem inv_other (h : InvOf s q) (hx : uses (s.loc t) = none) (hh : holds (s.loc t) = false)
    (hok : GuardedAt s (s.loc t)) (hn : stepThread t s = some s') : InvOf s' q := by
  unfold stepThread at hn
  cases hl : s.loc t with
  | idle | aborted =>
    rw [hl] at hn
    cases hn
  | addLock rep =>
    rw [hl] at hn
    dsimp only at hn
    split at hn
    · rename_i hlock
      obtain rfl := Option.some.inj hn
      exact h.lockStep hlock rfl (by rw [hl]; rfl) (by rw [hl]; rfl)
        (by rw [hl]; exact fun x hx => nomatch hx) trivial
    · cases hn
  | delLock addr =>
    rw [hl] at hn
    dsimp only at hn
    split at hn
    · rename_i hlock
      obtain rfl := Option.some.inj hn
      exact h.lockStep hlock rfl (by rw [hl]; rfl) (by rw [hl]; rfl)
        (by rw [hl]; exact fun x hx => nomatch hx) h.head_mem
    · cases hn
  | freeLater rep =>
    rw [hl] at hn
    obtain rfl := Option.some.inj hn
    split
    · exact h.retire hl rfl rfl rfl trivial rfl fun _ _ _ _ hlt => absurd hlt (Nat.not_lt_zero _)
    · exact h.retire hl rfl rfl rfl trivial rfl fun _ _ _ => trivial
  | scan i plist =>
    rw [hl] at hn
    dsimp only at hn
    split at hn <;> obtain rfl := Option.some.inj hn
    · exact h.scanRead hl
    · rename_i hi
      exact h.scanEnd hl (Nat.le_of_not_lt hi)
  | sweep plist tmplist =>
    rw [hl] at hn hok
    cases tmplist with
    | nil =>
      obtain rfl := Option.some.inj hn
      exact h.walk rfl rfl rfl rfl rfl rfl (h.lock.stay rfl (by rw [hl]; rfl)) (by rw [hl]; rfl)
        (by rw [hl]; rfl) (by rw [hl]; exact fun x hx => nomatch hx) trivial rfl fun _ _ _ => trivial
    | cons cur tmplist =>
      dsimp only at hn
      split at hn <;> obtain rfl := Option.some.inj hn
      · exact h.sweepKeep hl
      · rename_i hcur
        exact h.free hl hcur (hok hcur)
  | load | record | check | readAddr | readFreed | readIface =>
    rw [hl] at hx
    cases hx
  | addLoad | addStore | addLink | addUnlock | delLoad | delAddr | delNext | unlink | poison
  | delUnlock =>
    rw [hl] at hh
    cases hh

/-- **The step lemma.** -/
theorem inv_next {a : Act n} (h : InvOf s q) (hok : Guarded a s) (hn : next a s = some s') :
    ∃ q', InvOf s' q' := by
  cases a with
  | lookup t addr =>
    simp only [next] at hn
    split at hn
    · rename_i hl
      obtain rfl := Option.some.inj hn
      exact ⟨q, h.restart (by rw [hl]; rfl) (by rw [hl]; rfl)⟩
    · cases hn
  | add t addr iface a =>
    simp only [next] at hn
    split at hn
    · rename_i hl
      obtain rfl := Option.some.inj hn
      exact ⟨q, h.alloc hl.1 hl.2⟩
    · cases hn
  | del t addr =>
    simp only [next] at hn
    split at hn
    · rename_i hl
      obtain rfl := Option.some.inj hn
      exact ⟨q, h.walk rfl rfl rfl rfl rfl rfl (h.lock.stay rfl (by rw [hl]; rfl)) (by rw [hl]; rfl)
        (by rw [hl]; rfl) (by rw [hl]; exact fun x hx => nomatch hx) trivial rfl
        fun _ _ _ => trivial⟩
    · cases hn
  | scan t =>
    simp only [next] at hn
    split at hn
    · rename_i hl
      obtain rfl := Option.some.inj hn
      exact ⟨q, h.walk rfl rfl rfl rfl rfl rfl (h.lock.stay rfl (by rw [hl]; rfl)) (by rw [hl]; rfl)
        (by rw [hl]; rfl) (by rw [hl]; exact fun x hx => nomatch hx) trivial rfl
        fun _ _ _ _ hlt => absurd hlt (Nat.not_lt_zero _)⟩
    · cases hn
  | step t =>
    have hn' : stepThread t s = some s' := hn
    cases hh : holds (s.loc t) with
    | true => exact inv_locked h hh hn'
    | false =>
      cases hx : uses (s.loc t) with
      | none => exact ⟨q, inv_other h hx hh hok hn'⟩
      | some x => exact ⟨q, inv_lookup h hx hn'⟩

theorem inv_init (h : Init s) : InvOf s [.head] where
  path := ⟨rfl, h.reNext⟩
  nodup := List.nodup_singleton _
  live := fun x hx => (h.live x).mpr (List.mem_singleton.mp hx)
  dead := by
    constructor
    · exact Bool.eq_false_iff.mpr fun hl => Ptr.noConfusion ((h.live _).mp hl)
    · exact Bool.eq_false_iff.mpr fun hl => Ptr.noConfusion ((h.live _).mp hl)
  fresh := fun x hx => (h.live x).mp hx ▸ h.reFreed
  lock := fun t => by rw [h.routelock, h.loc]; simp [holds]
  ownNodup := fun t => by rw [own, h.rlist, h.loc]; exact List.nodup_nil
  ownLive := fun t x hx => by rw [own, h.rlist, h.loc] at hx; cases hx
  ownOne := fun t u x hx _ => by rw [own, h.rlist, h.loc] at hx; cases hx
  stale := fun x hx hq _ => absurd (List.mem_singleton.mpr ((h.live x).mp hx)) hq
  slots := fun i _ => h.HP i
  loc := fun t => by rw [h.loc]; trivial
  reads := fun t => by rw [h.loc]; exact fun x hx => nomatch hx

theorem inv_reach (h : (sys n).Reach Guarded s) : ∃ q, InvOf s q :=
  h.inv (I := fun s => ∃ q, InvOf s q) (fun _ hi => ⟨_, inv_init hi⟩)
    fun _ _ _ hi hok hn => hi.elim fun _ hi => inv_next hi hok hn

/-! ### What the lookups access -/

theorem rechecks_uses (hr : rechecks l ≠ none) (hx : uses l = some x) : rechecks l = some x := by
  cases l <;> simp [rechecks] at hr
  exact hx

/-- Both hazard pointers of the thread are elsewhere at the second read. -/
theorem InvOf.not_covered {a : ℕ} (h : InvOf s q) (hr : rechecks (s.loc t) = some (.entry a)) :
    ¬ s.Covered t (.entry a) := by
  rintro ⟨o, ho, hcov⟩
  have hlt := h.loc t
  cases hl : s.loc t <;> rw [hl] at hr hlt <;> simp [rechecks] at hr
  obtain ⟨⟨hne, -, -⟩, hHP⟩ := hlt
  rcases Nat.eq_zero_or_pos o with rfl | hpos
  · exact hne (hHP.symm.trans (hcov.trans hr.symm))
  · have hslot : myHazptr t o % K ≠ 0 := by
      rw [myHazptr, Nat.mul_add_mod, Nat.mod_eq_of_lt ho]
      exact hpos.ne'
    rw [h.slots _ hslot] at hcov
    cases hcov

theorem InvOf.safe (h : InvOf s q) : Safe s where
  live := fun t a hx => (h.reads t _ hx).1
  covered := fun t a hx => by
    constructor
    · exact fun hcov hr => h.not_covered hr hcov
    · intro hr
      rcases (h.reads t _ hx).2.2 with hhead | hre | hcov
      · cases hhead
      · exact absurd (rechecks_uses hre hx) hr
      · exact ⟨0, by decide, hcov.1⟩
  noAbort := fun t hl => by
    have hlt := h.loc t
    rw [hl] at hlt
    exact hlt

/-- An empty table, for two threads. -/
def start : St 2 where
  reNext := fun _ => .null
  addr := fun _ => 0
  iface := fun _ => 0
  reFreed := fun _ => false
  HP := fun _ => .null
  routelock := none
  rlist := fun _ => []
  loc := fun _ => .idle
  ret := fun _ => 0
  live := fun x => x = .head

theorem start_init : Init start :=
  ⟨rfl, rfl, fun _ => rfl, rfl, fun _ => rfl, fun _ => rfl, fun _ => decide_eq_true_iff⟩

/-- `m` steps of a thread in a row. -/
def steps (m : ℕ) (t : Fin 2) : List (Act 2) := List.replicate m (.step t)

end Route
end Hazptr
end Perfbook
