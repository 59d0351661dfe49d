/-
# What `q.c` keeps while links are fresh

As in `wfenqueue.c` the cells from `head` to `tail` are a chain with gaps, and a
cell outside of it is with at most one thread that is about to push it. A
`cmpxchg` that succeeds with a link that is still there takes off the first
cell, and the invariant holds on; with a stale link it would put `head` on a
cell that left the chain before.

What was returned and the users' cells in the chain are, in this order, the
cells whose pushes exchanged the tail; those of one thread are in the order
of its calls.

Key definitions: `LocInv`, `InvOf`.
Key theorems: `inv_next`, `delivers`, `returns_twice`.
-/
import Perfbook.Conc.Chain
import Perfbook.Queue.Q
import Perfbook.Queue.WfInv

namespace Perfbook
namespace Queue
namespace Q

open Conc
open Wf (users users_append)

variable {τ E : Type}

/-- The cell that a thread pushes. -/
def work : Loc E → Option (Cell E)
  | .clear c | .xchg c | .link c _ => some c
  | _ => none

/-- The cell that is not in the chain yet. -/
def away : Loc E → Option (Cell E)
  | .clear c | .xchg c => some c
  | _ => none

/-- The links that are still to be stored. -/
def Gap (s : St τ E) (a b : Cell E) : Prop := ∃ t, s.loc t = .link b a

/-- What holds at each place of the code. -/
def LocInv (s : St τ E) (q : List (Cell E)) : Loc E → Prop
  | .xchg c => s.next c = none
  | .link c a => (∃ l₁ l₂, q = l₁ ++ a :: c :: l₂) ∧ s.next a = none
  | _ => True

section Inv

variable [DecidableEq E]

/-- The cells of a thread's calls. -/
def mine (s : St τ E) (t : τ) (l : List (Cell E)) : List (Cell E) :=
  l.filter fun c => c ∈ (s.pushed t).map .el

/-- The invariant; `q` is the chain. -/
structure InvOf (s : St τ E) (q : List (Cell E)) : Prop where
  chain : Chain s.next (Gap s) q s.tail
  head : q.head? = some s.head
  loc : ∀ t, LocInv s q (s.loc t)
  away : ∀ t c, away (s.loc t) = some c → c ∉ q ∧ c ∉ s.returned
  one : ∀ t u c, work (s.loc t) = some c → work (s.loc u) = some c → t = u
  nodup : (s.returned ++ users q).Nodup
  noDummy : Cell.dummy ∉ s.returned
  startedCell : ∀ e, .el e ∈ s.returned ++ users q → s.started e = true
  startedWork : ∀ t e, work (s.loc t) = some (.el e) → s.started e = true
  startedPush : ∀ t e, e ∈ s.pushed t → s.started e = true
  owner : ∀ t u e, e ∈ s.pushed t → e ∈ s.pushed u → t = u
  order : ∀ t, mine s t (s.returned ++ users q) ++ users (Q.away (s.loc t)).toList =
    (s.pushed t).map .el

end Inv

variable {s s' : St τ E} {q q' l₁ l₂ : List (Cell E)} {a b c : Cell E} {t u : τ} {l : Loc E}

theorem inv_init [DecidableEq τ] [DecidableEq E] (h : Init s) : InvOf s [.dummy] where
  chain :=
    { nodup := List.nodup_singleton _
      tail := by rw [h.tail]; rfl
      link := fun l₁ a b l₂ heq => by
        have hlen := congrArg List.length heq
        simp only [List.length_append, List.length_cons, List.length_nil] at hlen
        omega
      last := by rw [h.tail, h.next] }
  head := by rw [h.head]; rfl
  loc := fun t => by rw [h.loc t]; trivial
  away := fun t c hc => by rw [h.loc t] at hc; cases hc
  one := fun t u c hc => by rw [h.loc t] at hc; cases hc
  nodup := by rw [h.returned]; exact List.nodup_nil
  noDummy := by rw [h.returned]; exact List.not_mem_nil
  startedCell := fun e he => by rw [h.returned] at he; simp [users] at he
  startedWork := fun t e he => by rw [h.loc t] at he; cases he
  startedPush := fun t e he => by rw [h.pushed t] at he; cases he
  owner := fun t u e he => by rw [h.pushed t] at he; cases he
  order := fun t => by rw [h.returned, h.loc t, h.pushed t]; rfl

section Threads

variable [DecidableEq τ] [DecidableEq E]

omit [DecidableEq E] in
/-- A thread that has no link to store leaves the gaps to the others. -/
theorem gap_of_ne (hloc : s'.loc = Function.update s.loc t l) (hl : ∀ b a, s.loc t ≠ .link b a)
    (a b : Cell E) (hg : Gap s a b) : Gap s' a b := by
  obtain ⟨v, hv⟩ := hg
  exact ⟨v, by rw [update_ne hloc (fun h => hl b a (h ▸ hv)), hv]⟩

/-- A step that takes no cell into the chain or out of it. -/
theorem InvOf.quiet (h : InvOf s q) (hloc : s'.loc = Function.update s.loc t l)
    (hhead : s'.head = s.head) (hret : s'.returned = s.returned) (hst : s'.started = s.started)
    (hp : s'.pushed = s.pushed) (hc : Chain s'.next (Gap s') q s'.tail) (hl : LocInv s' q l)
    (hu : ∀ u, u ≠ t → LocInv s q (s.loc u) → LocInv s' q (s.loc u))
    (haway : Q.away l = Q.away (s.loc t)) (hwork : work l = work (s.loc t) ∨ work l = none) :
    InvOf s' q := by
  have hawayAll : ∀ u, Q.away (s'.loc u) = Q.away (s.loc u) := proj_update hloc Q.away haway
  have hworkAll : ∀ u c, work (s'.loc u) = some c → work (s.loc u) = some c := some_update hloc work hwork
  exact
    { chain := hc
      head := hhead ▸ h.head
      loc := forall_update (P := fun _ x => LocInv s' q x) hloc hl fun u hne => hu u hne (h.loc u)
      away := fun u c hx => hret ▸ h.away u c (hawayAll u ▸ hx)
      one := fun u v c hx hy => h.one u v c (hworkAll u c hx) (hworkAll v c hy)
      nodup := hret ▸ h.nodup
      noDummy := hret ▸ h.noDummy
      startedCell := by rw [hret, hst]; exact h.startedCell
      startedWork := fun u e hx => hst ▸ h.startedWork u e (hworkAll u _ hx)
      startedPush := by rw [hp, hst]; exact h.startedPush
      owner := by rw [hp]; exact h.owner
      order := fun u => by
        have := h.order u
        rw [hawayAll, hret, hp]
        rw [mine] at this ⊢
        rw [hp]
        exact this }

/-- A thread that pushes no cell goes on. -/
theorem InvOf.walk (h : InvOf s q) (hw : work (s.loc t) = none) (hwl : work l = none) :
    InvOf (s.goto t l) q := by
  have hloc : (s.goto t l).loc = Function.update s.loc t l := rfl
  have haway : ∀ x : Loc E, work x = none → Q.away x = none := fun x hx => by
    cases x <;> first | rfl | cases hx
  refine h.quiet hloc rfl rfl rfl rfl
    (h.chain.congr (fun _ _ => rfl) (gap_of_ne hloc fun b a hba => by rw [hba] at hw; cases hw)) ?_
    (fun u _ hu => ?_) ?_ (.inr hwl)
  · cases l with
    | clear | xchg | link => cases hwl
    | idle | getHead | getNext | cas | testHead => trivial
  · exact hu
  · rw [haway _ hw, haway _ hwl]

/-- `p->next = NULL`, while `p` is not in the chain. -/
theorem InvOf.clear (h : InvOf s q) (hl : s.loc t = .clear c) :
    InvOf ((s.store c none).goto t (.xchg c)) q := by
  set s' := (s.store c none).goto t (.xchg c) with hs'
  have hloc : s'.loc = Function.update s.loc t (.xchg c) := rfl
  have hc : c ∉ q := (h.away t c (by rw [hl]; rfl)).1
  have hne : ∀ x ∈ q, s'.next x = s.next x := fun x hx =>
    Function.update_of_ne (ne_of_mem_of_not_mem hx hc) _ _
  refine h.quiet hloc rfl rfl rfl rfl
    (h.chain.congr hne (gap_of_ne hloc fun b a hba => by rw [hl] at hba; cases hba))
    (Function.update_self ..) (fun u _ hu => ?_) (by rw [hl]; rfl) (.inl (by rw [hl]; rfl))
  cases hu' : s.loc u with
  | xchg d =>
    rw [hu'] at hu
    by_cases hd : d = c
    · subst hd
      exact Function.update_self ..
    · exact (Function.update_of_ne hd _ _).trans hu
  | link d a =>
    rw [hu'] at hu
    obtain ⟨⟨l₁, l₂, rfl⟩, hn⟩ := hu
    exact ⟨⟨l₁, l₂, rfl⟩, (hne a (by simp)).trans hn⟩
  | idle | clear | getHead | getNext | cas | testHead => trivial

/-- `*oldtail = p` closes the gap before `p`. -/
theorem InvOf.link (h : InvOf s q) (hl : s.loc t = .link c a) (hwl : work l = none) :
    InvOf ((s.store a (some c)).goto t l) q := by
  set s' := (s.store a (some c)).goto t l with hs'
  have hloc : s'.loc = Function.update s.loc t l := rfl
  have hne : ∀ x, x ≠ a → s'.next x = s.next x := fun x hx => Function.update_of_ne hx _ _
  have hlt := h.loc t
  rw [hl] at hlt
  obtain ⟨⟨l₁, l₂, hq⟩, hna⟩ := hlt
  have haway : Q.away l = none := by
    cases l <;> first | rfl | cases hwl
  refine h.quiet hloc rfl rfl rfl rfl (h.chain.link_gap hq fun x y hx hg => ?_) ?_ (fun u hu hlu => ?_)
    (by rw [haway, hl]; rfl) (.inr hwl)
  · obtain ⟨v, hv⟩ := hg
    refine ⟨v, ?_⟩
    rw [update_ne hloc, hv]
    rintro rfl
    rw [hl] at hv
    injection hv with _ hv
    exact hx hv.symm
  · cases l with
    | clear | xchg | link => cases hwl
    | idle | getHead | getNext | cas | testHead => trivial
  · cases hlu' : s.loc u with
    | xchg d =>
      rw [hlu'] at hlu
      have hd : d ∉ q := (h.away u d (by rw [hlu']; rfl)).1
      exact (hne d (fun he => hd (by rw [he, hq]; simp))).trans hlu
    | link b x =>
      rw [hlu'] at hlu
      obtain ⟨⟨l₃, l₄, hq'⟩, hn⟩ := hlu
      refine ⟨⟨l₃, l₄, hq'⟩, (hne x ?_).trans hn⟩
      rintro rfl
      have hbc : b = c := Conc.Chain.succ_unique h.chain.nodup hq' hq
      exact hu (h.one u t c (by rw [hlu', hbc]; rfl) (by rw [hl]; rfl))
    | idle | clear | getHead | getNext | cas | testHead => trivial

omit [DecidableEq τ] in
theorem mine_append (s : St τ E) (t : τ) (l₁ l₂ : List (Cell E)) :
    mine s t (l₁ ++ l₂) = mine s t l₁ ++ mine s t l₂ := List.filter_append ..

omit [DecidableEq τ] in
/-- The thread's call is of its own element. -/
theorem InvOf.mine_mem {e : E} (h : InvOf s q) (ha : Q.away (s.loc t) = some (.el e)) :
    e ∈ s.pushed t := by
  have hmem : Cell.el e ∈ (s.pushed t).map Cell.el := by
    rw [← h.order t, ha]
    simp [users]
  obtain ⟨e', he', he⟩ := List.mem_map.mp hmem
  injection he with he
  exact he ▸ he'

/-- `xchg(&q->tail, p)`. -/
theorem InvOf.xchg (h : InvOf s q) (hl : s.loc t = .xchg c) :
    InvOf ({ s with tail := c }.goto t (.link c s.tail)) (q ++ [c]) := by
  set s' := { s with tail := c }.goto t (.link c s.tail) with hs'
  have hloc : s'.loc = Function.update s.loc t (.link c s.tail) := rfl
  obtain ⟨hc, hcr⟩ := h.away t c (by rw [hl]; rfl)
  have hnc : s.next c = none := by
    have := h.loc t
    rwa [hl] at this
  have hwork : ∀ u d, work (s'.loc u) = some d → work (s.loc u) = some d :=
    forall_update (P := fun u x => ∀ d, work x = some d → work (s.loc u) = some d) hloc
      (fun d hx => by rw [hl]; exact hx) fun _ _ _ hx => hx
  have hne : ∀ u d, u ≠ t → Q.away (s.loc u) = some d → d ≠ c := by
    rintro u d hu hd rfl
    have hw : work (s.loc u) = some d := by
      revert hd
      cases s.loc u <;> simp [Q.away, work]
    exact hu (h.one u t d hw (by rw [hl]; rfl))
  have hcells : ∀ x, x ∈ s.returned ++ users (q ++ [c]) → x ∈ s.returned ++ users q ∨ x = c := by
    intro x hx
    rw [users_append, ← List.append_assoc, List.mem_append] at hx
    exact hx.imp id fun hx => List.mem_singleton.mp (List.mem_of_mem_filter hx)
  refine
    { chain := h.chain.snoc hc hnc (gap_of_ne hloc fun b a hba => by rw [hl] at hba; cases hba)
        ⟨t, update_self hloc⟩
      head := by rw [List.head?_append, h.head]; rfl
      loc := forall_update (P := fun _ x => LocInv s' (q ++ [c]) x) hloc ?_ fun u hu => ?_
      away := forall_update (P := fun _ x => ∀ d, Q.away x = some d → d ∉ q ++ [c] ∧ d ∉ s.returned)
        hloc (fun d hx => by cases hx) fun u hu d hx => ⟨?_, (h.away u d hx).2⟩
      one := fun u v d hx hy => h.one u v d (hwork u d hx) (hwork v d hy)
      nodup := ?_
      noDummy := h.noDummy
      startedCell := fun e he => ?_
      startedWork := fun u e hx => h.startedWork u e (hwork u _ hx)
      startedPush := h.startedPush
      owner := h.owner
      order := ?_ }
  · obtain ⟨l, hq⟩ := List.getLast?_eq_some_iff.mp h.chain.tail
    exact ⟨⟨l, [], by rw [hq]; simp⟩, h.chain.last⟩
  · have hlu := h.loc u
    cases hu' : s.loc u with
    | link d a =>
      rw [hu'] at hlu
      obtain ⟨⟨l₁, l₂, rfl⟩, hn⟩ := hlu
      exact ⟨⟨l₁, l₂ ++ [c], by simp⟩, hn⟩
    | xchg d =>
      rw [hu'] at hlu
      exact hlu
    | idle | clear | getHead | getNext | cas | testHead => trivial
  · rw [List.mem_append, List.mem_singleton]
    rintro (hd | hd)
    · exact (h.away u d hx).1 hd
    · exact hne u d hu hx hd
  · rw [users_append, ← List.append_assoc]
    refine List.nodup_append.mpr ⟨h.nodup, ?_, fun x hx y hy => ?_⟩
    · exact (List.nodup_singleton c).filter _
    · obtain rfl := List.mem_singleton.mp (List.mem_of_mem_filter hy)
      rintro rfl
      rcases List.mem_append.mp hx with hx | hx
      · exact hcr hx
      · exact hc (List.mem_of_mem_filter hx)
  · rcases hcells _ he with he | rfl
    · exact h.startedCell e he
    · exact h.startedWork t e (by rw [hl]; rfl)
  · have hother : ∀ u, u ≠ t → mine s u (users [c]) = [] := by
      intro u hu
      cases c with
      | dummy => rfl
      | el e =>
        have he : e ∈ s.pushed t := h.mine_mem (by rw [hl]; rfl)
        have hn : e ∉ s.pushed u := fun heu => hu (h.owner u t e heu he)
        simp [mine, users, hn]
    refine forall_update (P := fun u x => mine s u (s.returned ++ users (q ++ [c])) ++
      users (Q.away x).toList = (s.pushed u).map .el) hloc ?_ fun u hu => ?_
    · have hself : mine s t (users [c]) = users [c] := by
        cases c with
        | dummy => rfl
        | el e =>
          have he : e ∈ s.pushed t := h.mine_mem (by rw [hl]; rfl)
          simp [mine, users, he]
      have ho := h.order t
      rw [hl] at ho
      rw [users_append, ← List.append_assoc, mine_append, hself]
      exact (List.append_nil _).trans ho
    · rw [users_append, ← List.append_assoc, mine_append, hother u hu, List.append_nil]
      exact h.order u

omit [DecidableEq τ] in
/-- No thread works on the first cell. -/
theorem InvOf.head_free (h : InvOf s (c :: q)) (u : τ) : work (s.loc u) ≠ some c := by
  intro hw
  have hl := h.loc u
  cases hu : s.loc u with
  | link d a =>
    rw [hu] at hw hl
    obtain ⟨⟨l₁, l₂, heq⟩, -⟩ := hl
    obtain rfl : d = c := Option.some.inj hw
    have hn := h.chain.nodup
    cases l₁ with
    | nil =>
      obtain ⟨-, rfl⟩ := List.cons.inj heq
      exact (List.nodup_cons.mp hn).1 List.mem_cons_self
    | cons x l₁ =>
      obtain ⟨-, rfl⟩ := List.cons.inj heq
      exact (List.nodup_cons.mp hn).1 (by simp)
  | clear d | xchg d =>
    refine (h.away u c ?_).1 List.mem_cons_self
    rw [hu] at hw ⊢
    exact hw
  | idle | getHead | getNext | cas | testHead =>
    rw [hu] at hw
    cases hw

/-- **A `cmpxchg` with a fresh link** takes the first cell out of the chain. -/
theorem InvOf.take {p pnext : Cell E} (h : InvOf s q) (hl : s.loc t = .cas p pnext)
    (hp : s.head = p) (hn : s.next p = some pnext) :
    ∃ r, q = p :: pnext :: r ∧ InvOf (s.take t p pnext) (pnext :: r) := by
  obtain ⟨l, rfl⟩ : ∃ l, q = p :: l := by
    have hh := h.head
    rw [hp] at hh
    exact ⟨_, List.eq_cons_of_mem_head? hh⟩
  obtain ⟨r, rfl⟩ : ∃ r, l = pnext :: r := by
    obtain ⟨l₁, l₂, hq⟩ := h.chain.next_split List.mem_cons_self hn
    cases l₁ with
    | nil => exact ⟨l₂, (List.cons.inj hq).2⟩
    | cons x l₁ =>
      obtain ⟨-, rfl⟩ := List.cons.inj hq
      exact absurd (by simp) (List.nodup_cons.mp h.chain.nodup).1
  refine ⟨r, rfl, ?_⟩
  set s' := s.take t p pnext with hs'
  obtain ⟨x, hloc, hworkx, hawayx, hx⟩ : ∃ x, s'.loc = Function.update s.loc t x ∧
      work x = Q.away x ∧ (∀ c, Q.away x = some c → c = .dummy ∧ p = .dummy) ∧ LocInv s' (pnext :: r) x := by
    rw [hs']
    cases p with
    | dummy => exact ⟨_, rfl, rfl, fun c hc => ⟨(Option.some.inj hc).symm, rfl⟩, trivial⟩
    | el e => exact ⟨_, rfl, rfl, (fun c hc => nomatch hc), trivial⟩
  have hfields : s'.head = pnext ∧ s'.tail = s.tail ∧ s'.next = s.next ∧ s'.started = s.started ∧
      s'.pushed = s.pushed := by
    rw [hs']
    cases p <;> exact ⟨rfl, rfl, rfl, rfl, rfl⟩
  obtain ⟨hhead, htail, hnext, hst, hpu⟩ := hfields
  have hcells : s'.returned ++ users (pnext :: r) = s.returned ++ users (p :: pnext :: r) := by
    rw [hs']
    cases p with
    | dummy => rfl
    | el e =>
      show s.returned ++ [Cell.el e] ++ users (pnext :: r) = s.returned ++ Cell.el e :: users (pnext :: r)
      simp
  have hret : ∀ c, c ∈ s'.returned → c ∈ s.returned ∨ c = p ∧ p ≠ .dummy := by
    rw [hs']
    cases p with
    | dummy => exact fun c hc => .inl hc
    | el e =>
      intro c hc
      rcases List.mem_append.mp hc with hc | hc
      · exact .inl hc
      · exact .inr ⟨List.mem_singleton.mp hc, fun he => nomatch he⟩
  have hpr : p ∉ pnext :: r := (List.nodup_cons.mp h.chain.nodup).1
  have hawayu : ∀ u c, Q.away (s.loc u) = some c → work (s.loc u) = some c := by
    intro u c hc
    revert hc
    cases s.loc u <;> simp [Q.away, work]
  exact
    { chain := by
        rw [htail, hnext]
        exact h.chain.drop (gap_of_ne hloc fun b a hba => by rw [hl] at hba; cases hba)
      head := by rw [hhead]; rfl
      loc := forall_update (P := fun _ y => LocInv s' (pnext :: r) y) hloc hx fun u _ => by
        have hlu := h.loc u
        cases hu' : s.loc u with
        | link d a =>
          rw [hu'] at hlu
          obtain ⟨⟨l₁, l₂, heq⟩, hna⟩ := hlu
          refine ⟨?_, hnext ▸ hna⟩
          cases l₁ with
          | nil =>
            obtain ⟨rfl, -⟩ := List.cons.inj heq
            rw [hn] at hna
            cases hna
          | cons y l₁ => exact ⟨l₁, l₂, (List.cons.inj heq).2⟩
        | xchg d =>
          rw [hu'] at hlu
          exact (congrFun hnext d).trans hlu
        | idle | clear | getHead | getNext | cas | testHead => trivial
      away := forall_update (P := fun _ y => ∀ c, Q.away y = some c → c ∉ pnext :: r ∧ c ∉ s'.returned)
        hloc (fun c hc => by
          obtain ⟨rfl, rfl⟩ := hawayx c hc
          refine ⟨hpr, fun hm => ?_⟩
          rcases hret _ hm with hm | ⟨-, hm⟩
          · exact h.noDummy hm
          · exact hm rfl) fun u _ c hc => by
          obtain ⟨hq, hr⟩ := h.away u c hc
          refine ⟨fun hm => hq (List.mem_cons_of_mem _ hm), fun hm => ?_⟩
          rcases hret _ hm with hm | ⟨rfl, -⟩
          · exact hr hm
          · exact hq List.mem_cons_self
      one := by
        have hold : ∀ u c, work (s'.loc u) = some c → u = t ∧ c = p ∨ u ≠ t ∧ work (s.loc u) = some c :=
          forall_update (P := fun u y => ∀ c, work y = some c →
            u = t ∧ c = p ∨ u ≠ t ∧ work (s.loc u) = some c) hloc
            (fun c hc => by
              obtain ⟨hc, hp⟩ := hawayx c (hworkx ▸ hc)
              exact .inl ⟨rfl, hc.trans hp.symm⟩) fun u hu c hc => .inr ⟨hu, hc⟩
        intro u v c hu hv
        rcases hold u c hu with ⟨rfl, rfl⟩ | ⟨-, hu'⟩
        · rcases hold v c hv with ⟨rfl, -⟩ | ⟨-, hv'⟩
          · rfl
          · exact absurd hv' (h.head_free v)
        · rcases hold v c hv with ⟨-, rfl⟩ | ⟨-, hv'⟩
          · exact absurd hu' (h.head_free u)
          · exact h.one u v c hu' hv'
      nodup := hcells ▸ h.nodup
      noDummy := fun hm => by
        rcases hret _ hm with hm | ⟨rfl, hm⟩
        · exact h.noDummy hm
        · exact hm rfl
      startedCell := by
        rw [hcells, hst]
        exact h.startedCell
      startedWork := by
        rw [hst]
        exact forall_update (P := fun _ y => ∀ e, work y = some (.el e) → s.started e = true) hloc
          (fun e he => by cases (hawayx _ (hworkx ▸ he)).1) fun u _ => h.startedWork u
      startedPush := by
        rw [hst, hpu]
        exact h.startedPush
      owner := by
        rw [hpu]
        exact h.owner
      order := by
        intro u
        have hu : users (Q.away (s'.loc u)).toList = users (Q.away (s.loc u)).toList := by
          refine forall_update (P := fun u y => users (Q.away y).toList =
            users (Q.away (s.loc u)).toList) hloc ?_ (fun _ _ => rfl) u
          rw [hl]
          cases hay : Q.away x with
          | none => rfl
          | some c =>
            rw [(hawayx c hay).1]
            rfl
        have ho := h.order u
        rw [hu, hcells, hpu]
        rw [mine] at ho ⊢
        rw [hpu]
        exact ho }

/-- `q_push(p)` is called with an element that was not pushed before. -/
theorem InvOf.call {e : E} (h : InvOf s q) (hl : s.loc t = .idle) (hb : s.started e = false) :
    InvOf ((s.call t e).goto t (.clear (.el e))) q := by
  set s' := (s.call t e).goto t (.clear (.el e)) with hs'
  have hloc : s'.loc = Function.update s.loc t (.clear (.el e)) := rfl
  have hst : ∀ x, s.started x = true → s'.started x = true := fun x hx => by
    show Function.update s.started e true x = true
    by_cases hxe : x = e
    · rw [hxe, Function.update_self]
    · rwa [Function.update_of_ne hxe]
  have hself : s'.started e = true := Function.update_self ..
  have hpt : s'.pushed t = s.pushed t ++ [e] := Function.update_self ..
  have hpu : ∀ u, u ≠ t → s'.pushed u = s.pushed u := fun u hu => Function.update_of_ne hu _ _
  have hfresh : .el e ∉ s.returned ++ users q := fun hm => by
    rw [h.startedCell e hm] at hb
    cases hb
  have hold : ∀ u c, work (s'.loc u) = some c →
      u = t ∧ c = .el e ∨ u ≠ t ∧ work (s.loc u) = some c :=
    forall_update (P := fun u y => ∀ c, work y = some c →
      u = t ∧ c = .el e ∨ u ≠ t ∧ work (s.loc u) = some c) hloc
      (fun c hc => .inl ⟨rfl, (Option.some.inj hc).symm⟩) fun u hu c hc => .inr ⟨hu, hc⟩
  have hfree : ∀ u, work (s.loc u) ≠ some (.el e) := fun u hu => by
    rw [h.startedWork u e hu] at hb
    cases hb
  have hpush : ∀ u x, x ∈ s'.pushed u → u = t ∧ x = e ∨ x ∈ s.pushed u := by
    intro u x hx
    by_cases hu : u = t
    · subst hu
      rw [hpt, List.mem_append, List.mem_singleton] at hx
      exact hx.symm.imp (fun hx => ⟨rfl, hx⟩) id
    · rw [hpu u hu] at hx
      exact .inr hx
  have hnot : ∀ u, e ∉ s.pushed u := fun u hu => by
    rw [h.startedPush u e hu] at hb
    cases hb
  exact
    { chain := h.chain.congr (fun _ _ => rfl)
        (gap_of_ne hloc fun b a hba => by rw [hl] at hba; cases hba)
      head := h.head
      loc := forall_update (P := fun _ x => LocInv s' q x) hloc trivial fun u _ => h.loc u
      away := forall_update (P := fun _ x => ∀ c, Q.away x = some c → c ∉ q ∧ c ∉ s.returned) hloc
        (fun c hc => by
          obtain rfl : Cell.el e = c := Option.some.inj hc
          refine ⟨fun hm => hfresh (List.mem_append_right _ ?_),
            fun hm => hfresh (List.mem_append_left _ hm)⟩
          exact List.mem_filter.mpr ⟨hm, rfl⟩) fun u _ => h.away u
      one := fun u v c hu hv => by
        rcases hold u c hu with ⟨rfl, rfl⟩ | ⟨-, hu'⟩
        · rcases hold v _ hv with ⟨rfl, -⟩ | ⟨-, hv'⟩
          · rfl
          · exact absurd hv' (hfree v)
        · rcases hold v c hv with ⟨-, rfl⟩ | ⟨-, hv'⟩
          · exact absurd hu' (hfree u)
          · exact h.one u v c hu' hv'
      nodup := h.nodup
      noDummy := h.noDummy
      startedCell := fun x hx => hst x (h.startedCell x hx)
      startedWork := fun u x hx => by
        rcases hold u _ hx with ⟨-, hx⟩ | ⟨-, hx⟩
        · injection hx with hx
          exact hx ▸ hself
        · exact hst x (h.startedWork u x hx)
      startedPush := fun u x hx => by
        rcases hpush u x hx with ⟨-, rfl⟩ | hx
        · exact hself
        · exact hst x (h.startedPush u x hx)
      owner := fun u v x hu hv => by
        rcases hpush u x hu with ⟨rfl, rfl⟩ | hu'
        · rcases hpush v x hv with ⟨rfl, -⟩ | hv'
          · rfl
          · exact absurd hv' (hnot v)
        · rcases hpush v x hv with ⟨-, rfl⟩ | hv'
          · exact absurd hu' (hnot u)
          · exact h.owner u v x hu' hv'
      order := by
        refine forall_update (P := fun u x => mine s' u (s.returned ++ users q) ++
          users (Q.away x).toList = (s'.pushed u).map .el) hloc ?_ fun u hu => ?_
        · have ho := h.order t
          rw [hl] at ho
          have hsame : mine s' t (s.returned ++ users q) = mine s t (s.returned ++ users q) := by
            refine List.filter_congr fun c hc => ?_
            have hce : c ≠ .el e := fun he => hfresh (he ▸ hc)
            simp [hpt, hce]
          rw [hsame, hpt, List.map_append, ← ho]
          simp [Q.away, users]
        · have ho := h.order u
          rw [mine] at ho ⊢
          rw [hpu u hu]
          exact ho }

/-- **The step lemma**, for steps with fresh links. -/
theorem inv_next {a : Act τ E} (h : InvOf s q) (hok : Fresh a s) (hn : next a s = some s') :
    ∃ q', InvOf s' q' := by
  cases a with
  | push t e =>
    simp only [next] at hn
    split at hn
    · rename_i hl hb
      obtain rfl := Option.some.inj hn
      exact ⟨q, h.call hl hb⟩
    · cases hn
  | pop t =>
    simp only [next] at hn
    split at hn
    · rename_i hl
      obtain rfl := Option.some.inj hn
      exact ⟨q, h.walk (by rw [hl]; rfl) rfl⟩
    · cases hn
  | step t =>
    have hn' : stepThread t s = some s' := hn
    clear hn
    rename' hn' => hn
    unfold stepThread at hn
    split at hn
    · cases hn
    · rename_i p hl
      obtain rfl := Option.some.inj hn
      exact ⟨q, h.clear hl⟩
    · rename_i p hl
      obtain rfl := Option.some.inj hn
      exact ⟨q ++ [p], h.xchg hl⟩
    · rename_i p old hl
      obtain rfl := Option.some.inj hn
      refine ⟨q, h.link hl ?_⟩
      split <;> rfl
    · rename_i hl
      obtain rfl := Option.some.inj hn
      exact ⟨q, h.walk (by rw [hl]; rfl) rfl⟩
    · rename_i p hl
      split at hn <;> obtain rfl := Option.some.inj hn
      · exact ⟨q, h.walk (by rw [hl]; rfl) rfl⟩
      · exact ⟨q, h.walk (by rw [hl]; rfl) rfl⟩
    · rename_i p pnext hl
      split at hn <;> obtain rfl := Option.some.inj hn
      · rename_i hp
        have hfresh : s.next p = some pnext := by
          have := hok
          simp only [Fresh, FreshAt, hl] at this
          exact this hp
        obtain ⟨r, -, hi⟩ := h.take hl hp hfresh
        exact ⟨_, hi⟩
      · exact ⟨q, h.walk (by rw [hl]; rfl) rfl⟩
    · rename_i hl
      obtain rfl := Option.some.inj hn
      refine ⟨q, h.walk (by rw [hl]; rfl) ?_⟩
      split <;> rfl

/-! ### What the queue delivers -/

omit [DecidableEq τ] in
/-- The invariant gives the four parts. -/
theorem InvOf.delivered (h : InvOf s q) : Delivers s where
  once := (List.nodup_append.mp h.nodup).1
  noDummy := h.noDummy
  kept := by
    rintro e ⟨t, he, hclear, hxchg, -⟩ hret
    have hmem : Cell.el e ∈ (s.pushed t).map Cell.el := List.mem_map_of_mem he
    rw [← h.order t, List.mem_append] at hmem
    have hq : Cell.el e ∈ q := by
      rcases hmem with hm | hm
      · rcases List.mem_append.mp (List.mem_of_mem_filter hm) with hm | hm
        · exact absurd hm hret
        · exact List.mem_of_mem_filter hm
      · have haway : Q.away (s.loc t) = some (.el e) := by
          simpa using List.mem_of_mem_filter hm
        cases hl : s.loc t with
        | clear c =>
          rw [hl] at haway hclear
          exact absurd (congrArg Loc.clear (Option.some.inj haway)) hclear
        | xchg c =>
          rw [hl] at haway hxchg
          exact absurd (congrArg Loc.xchg (Option.some.inj haway)) hxchg
        | idle | link | getHead | getNext | cas | testHead =>
          rw [hl] at haway
          cases haway
    obtain ⟨l, rfl⟩ : ∃ l, q = s.head :: l := ⟨_, List.eq_cons_of_mem_head? h.head⟩
    exact h.chain.leads hq
  order := by
    intro t
    have ho := h.order t
    rw [mine_append, List.append_assoc] at ho
    exact ⟨_, ho⟩

/-- A step leaves the links of the chain that are there, and moves the head
along its link at most. -/
theorem InvOf.keeps {a : Act τ E} (h : InvOf s q) (hok : Fresh a s) (hn : next a s = some s') :
    (∀ x ∈ q, ∀ y, s.next x = some y → s'.next x = some y) ∧
      (s'.head = s.head ∨
        s.next s.head = some s'.head ∧ ∀ e, s.head = .el e → .el e ∈ s'.returned) := by
  cases a with
  | push t e =>
    simp only [next] at hn
    split at hn
    · obtain rfl := Option.some.inj hn
      exact ⟨fun _ _ _ hy => hy, .inl rfl⟩
    · cases hn
  | pop t =>
    simp only [next] at hn
    split at hn
    · obtain rfl := Option.some.inj hn
      exact ⟨fun _ _ _ hy => hy, .inl rfl⟩
    · cases hn
  | step t =>
    have hn' : stepThread t s = some s' := hn
    unfold stepThread at hn'
    cases hl : s.loc t with
    | idle => simp [hl] at hn'
    | clear p =>
      simp only [hl, Option.some.injEq] at hn'
      subst hn'
      have hp := (h.away t p (by rw [hl]; rfl)).1
      exact ⟨fun x hx y hy => (Function.update_of_ne (ne_of_mem_of_not_mem hx hp) _ _).trans hy,
        .inl rfl⟩
    | link p old =>
      simp only [hl, Option.some.injEq] at hn'
      subst hn'
      have hlt := h.loc t
      rw [hl] at hlt
      refine ⟨fun x _ y hy => (Function.update_of_ne ?_ _ _).trans hy, .inl rfl⟩
      rintro rfl
      rw [hlt.2] at hy
      cases hy
    | cas p pnext =>
      simp only [hl] at hn'
      split at hn' <;> obtain rfl := Option.some.inj hn'
      · rename_i hp
        have hfresh : s.next p = some pnext := by
          have := hok
          simp only [Fresh, FreshAt, hl] at this
          exact this hp
        subst hp
        unfold St.take
        split
        · rename_i hd
          exact ⟨fun _ _ _ hy => hy, .inr ⟨hfresh, fun e he => by rw [hd] at he; cases he⟩⟩
        · rename_i e hd
          refine ⟨fun _ _ _ hy => hy, .inr ⟨hfresh, fun e' he => ?_⟩⟩
          rw [hd] at he
          injection he with he
          subst he
          exact List.mem_append_right _ List.mem_cons_self
      · exact ⟨fun _ _ _ hy => hy, .inl rfl⟩
    | getNext p =>
      simp only [hl] at hn'
      split at hn' <;> obtain rfl := Option.some.inj hn' <;> exact ⟨fun _ _ _ hy => hy, .inl rfl⟩
    | xchg | getHead | testHead =>
      simp only [hl, Option.some.injEq] at hn'
      subst hn'
      exact ⟨fun _ _ _ hy => hy, .inl rfl⟩

omit [DecidableEq τ] in
/-- What holds of the links of the chain holds of a path in it. -/
theorem InvOf.path {d : Cell E} (h : InvOf s q)
    (hkeep : ∀ x ∈ q, ∀ y, s.next x = some y → s'.next x = some y)
    (hp : Relation.ReflTransGen (fun a b => s.next a = some b) c d) (hc : c ∈ q) :
    Relation.ReflTransGen (fun a b => s'.next a = some b) c d := by
  induction hp using Relation.ReflTransGen.head_induction_on with
  | refl => exact .refl
  | head hab _ ih =>
    have hb := h.chain.next_split hc hab
    obtain ⟨l₁, l₂, hq⟩ := hb
    exact .head (hkeep _ hc _ hab) (ih (by rw [hq]; simp))

theorem InvOf.stays (h : InvOf s q) : StaysReachable s := by
  intro a s' hok hn e hr hret
  obtain ⟨hkeep, hhead⟩ := h.keeps hok hn
  have hmem : s.head ∈ q := List.mem_of_mem_head? h.head
  rcases hhead with hhead | ⟨hlink, htaken⟩
  · rw [St.Reachable, hhead]
    exact h.path hkeep hr hmem
  · rcases Relation.ReflTransGen.cases_head hr with he | ⟨b, hb, hrest⟩
    · exact absurd (htaken e he) hret
    · obtain rfl := Option.some.inj (hlink.symm.trans hb)
      obtain ⟨l₁, l₂, hq⟩ := h.chain.next_split hmem hlink
      exact h.path hkeep hrest (by rw [hq]; simp)

/-- **The queue delivers each element once and in order** in every run in which a
`cmpxchg` succeeds with fresh links only. -/
theorem delivers (h : (sys τ E).Reach Fresh s) : Delivers s ∧ StaysReachable s := by
  have hi : ∃ q, InvOf s q := by
    refine Sys.Reach.inv (I := fun s => ∃ q, InvOf s q) (fun s h0 => ⟨_, inv_init h0⟩)
      (fun a s s' hi hok hn => ?_) h
    obtain ⟨q, hi⟩ := hi
    have hn' : next a s = some s' := hn
    exact inv_next hi hok hn'
  obtain ⟨q, hi⟩ := hi
  exact ⟨hi.delivered, hi.stays⟩

end Threads

/-! ### Runs -/

/-- After `init_q`, for two threads. -/
def start : St (Fin 2) ℕ :=
  ⟨.dummy, .dummy, fun _ => none, fun _ => .idle, fun _ => false, fun _ => [], []⟩

theorem start_init : Init start :=
  ⟨rfl, rfl, rfl, fun _ => rfl, fun _ => rfl, fun _ => rfl, rfl⟩

/-- `m` steps of a thread in a row. -/
def steps (m : ℕ) (t : Fin 2) : List (Act (Fin 2) ℕ) := List.replicate m (.step t)

/-- Thread 1 pushes 1. -/
def pushOne : List (Act (Fin 2) ℕ) := .push 1 1 :: steps 3 1

/-- Thread 0 pops it: it takes off the dummy, pushes it again, and takes off the element. -/
def popOne : List (Act (Fin 2) ℕ) := pushOne ++ .pop 0 :: steps 10 0

theorem delivers_run : ∃ s, (sys (Fin 2) ℕ).Reach Fresh s ∧ s.returned = [.el 1] ∧
    Delivers s ∧ StaysReachable s := by
  have hrun : ((sys (Fin 2) ℕ).run Fresh popOne start).map (fun s => s.returned) = some [.el 1] := by
    decide
  obtain ⟨s, hs, hd⟩ := Option.map_eq_some_iff.mp hrun
  have hr := Sys.run_reach (.init start_init) hs
  exact ⟨s, hr, hd, delivers hr⟩

/-- Thread 0 reads the head and its link; thread 1 pops the element and pushes
another one; thread 0 does its `cmpxchg` and goes on. -/
def stale : List (Act (Fin 2) ℕ) :=
  pushOne ++ .pop 0 :: steps 2 0 ++ .pop 1 :: steps 10 1 ++ .push 1 2 :: steps 3 1 ++ steps 8 0

/-- With a stale link an element is returned twice, and the next one is lost. -/
theorem returns_twice : ∃ s, (sys (Fin 2) ℕ).Reach Sys.always s ∧ s.returned = [.el 1, .el 1] ∧
    ¬ Delivers s := by
  have hrun : ((sys (Fin 2) ℕ).run Sys.always stale start).map (fun s => s.returned) =
      some [.el 1, .el 1] := by
    decide
  obtain ⟨s, hs, hd⟩ := Option.map_eq_some_iff.mp hrun
  refine ⟨s, Sys.run_reach (.init start_init) hs, hd, fun h => ?_⟩
  have := h.once
  rw [hd] at this
  exact absurd this (by decide)

end Q
end Queue
end Perfbook
