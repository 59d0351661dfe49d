/-
# What `wfenqueue.c` keeps

The cells from `head` to `tail` are a chain `q`, in the order of their tail
exchanges: each cell's `next` is its successor, or is still `NULL` and the
push of the successor is about to store it (`Chain`). Any number of such gaps
may be open. A cell that is not in the chain is with at most one thread, which
is about to push it or to return it (`work`); the dummy is in the chain or with
the popper that re-enqueues it.

Key definitions: `Chain`, `LocInv`, `Inv`.
Key theorems: `InvOf.link`, `InvOf.exchange`, `InvOf.setHead`, `InvOf.null`, `InvOf.push`.
-/
import Perfbook.Conc.Chain
import Perfbook.Conc.Lock
import Perfbook.Queue.Wf
import Mathlib.Data.List.Nodup

namespace Perfbook
namespace Queue
namespace Wf

open Conc

variable {τ E : Type}

/-- The thread is between `spin_lock` and `spin_unlock`. -/
def holds : Loc E → Bool
  | .testHead | .testTail | .getHead | .wait _ | .loadNext _ | .setHead _ _ | .unlock _ => true
  | .clear .dummy | .xchg .dummy | .link .dummy _ => true
  | _ => false

/-- The cell that a thread pushes or returns. -/
def work : Loc E → Option (Cell E)
  | .clear c | .xchg c | .link c _ => some c
  | .unlock c => c
  | _ => none

/-- The cell that is outside of the chain for that reason. -/
def away : Loc E → Option (Cell E)
  | .clear c | .xchg c => some c
  | .unlock c => c
  | _ => none

/-- How far the call is: a push takes effect at its `xchg`, a pop where it
moves `head` past a user's element or finds that the dummy is the last cell. -/
def pend : Loc E → Pend (QueueOp (Cell E)) (Res (Cell E))
  | .idle => .idle
  | .clear (.el e) | .xchg (.el e) => .called (.push (.el e))
  | .link (.el _) _ => .done .pushed
  | .unlock c => .done (.popped c)
  | _ => .called .pop

/-- The cells of users. -/
def users (q : List (Cell E)) : List (Cell E) :=
  q.filter fun | .dummy => false | .el _ => true

/-- The elements whose pushes exchanged the tail, in that order. -/
def exchanged (log : List (Note E)) : List (Cell E) :=
  log.filterMap fun | .exchanged e => some (.el e) | _ => none

/-- What was returned, in that order. -/
def returned (log : List (Note E)) : List (Cell E) :=
  log.filterMap fun | .returned c => some c | _ => none

/-- The cell that a thread is about to return. -/
def takes : Loc E → List (Cell E)
  | .unlock (some c) => [c]
  | _ => []

/-- The cell that the holder of the mutex is about to return. -/
def St.taken (s : St τ E) : List (Cell E) := (s.mutex.map fun t => takes (s.loc t)).getD []

/-- The cells `q` lead from `head` to `tail`. -/
structure Chain (s : St τ E) (q : List (Cell E)) : Prop where
  nodup : q.Nodup
  head : ∃ c, q.head? = some c ∧ s.head = some c
  tail : q.getLast? = some s.tail
  link : ∀ l₁ a b l₂, q = l₁ ++ a :: b :: l₂ →
    s.next a = some b ∨ s.next a = none ∧ ∃ t, s.loc t = .link b a
  last : s.next s.tail = none

/-- What holds at each place of the code. -/
def LocInv (s : St τ E) (q : List (Cell E)) : Loc E → Prop
  | .xchg c => s.next c = none
  | .link c a => (∃ l₁ l₂, q = l₁ ++ a :: c :: l₂) ∧ s.next a = none
  | .testTail => s.head = some .dummy
  | .getHead => ∃ a b l, q = a :: b :: l
  | .wait ep => ∃ b l, q = ep :: b :: l
  | .loadNext ep => ∃ b l, q = ep :: b :: l ∧ s.next ep = some b
  | .setHead ep nx => ∃ b l, q = ep :: b :: l ∧ s.next ep = some b ∧ nx = some b
  | .unlock c => c ≠ some .dummy
  | _ => True

/-- The invariant; `q` is the chain. -/
structure InvOf (s : St τ E) (q : List (Cell E)) : Prop where
  chain : Chain s q
  loc : ∀ t, LocInv s q (s.loc t)
  mutex : ∀ t, s.mutex = some t ↔ holds (s.loc t) = true
  away : ∀ t c, away (s.loc t) = some c → c ∉ q
  one : ∀ t u c, work (s.loc t) = some c → work (s.loc u) = some c → t = u
  dummy : Cell.dummy ∈ q ∨ ∃ t, Wf.away (s.loc t) = some .dummy
  busyIn : ∀ e, Cell.el e ∈ q → s.busy e = true
  busyWork : ∀ t e, work (s.loc t) = some (.el e) → s.busy e = true
  books : returned s.log ++ s.taken ++ users q = exchanged s.log
  nulls : ∀ l₁ l₂, s.log = l₁ ++ .null :: l₂ → returned l₁ = exchanged l₁

/-- The invariant. -/
def Inv [DecidableEq τ] (s : St τ E) : Prop :=
  ∃ q, InvOf s q ∧ ∃ S, Lin (Conc.queue (Cell E)) s.hist S (fun t => pend (s.loc t)) (users q)

variable {s s' : St τ E} {q q' l₁ l₂ : List (Cell E)} {a b c : Cell E} {t u : τ} {l : Loc E}

/-! ### The chain -/

theorem Chain.mem_tail (h : Chain s q) : s.tail ∈ q := List.mem_of_getLast? h.tail

theorem Chain.tail_ne (h : Chain s (l₁ ++ a :: c :: l₂)) : s.tail ≠ a := by
  rintro rfl
  have ht := h.tail
  rw [List.getLast?_append_cons, List.getLast?_cons_cons] at ht
  have hn := (List.nodup_append.mp h.nodup).2.1
  exact (List.nodup_cons.mp hn).1 (List.mem_of_getLast? ht)

/-- The chain depends on its own cells, and on the pushes that are half done. -/
theorem Chain.congr (h : Chain s q) (hhead : s'.head = s.head) (htail : s'.tail = s.tail)
    (hnext : ∀ c ∈ q, s'.next c = s.next c)
    (hloc : ∀ t b a, s.loc t = .link b a → ∃ u, s'.loc u = .link b a) : Chain s' q where
  nodup := h.nodup
  head := hhead ▸ h.head
  tail := htail ▸ h.tail
  link l₁ a b l₂ heq := by
    rw [hnext a (heq ▸ by simp)]
    rcases h.link l₁ a b l₂ heq with hx | ⟨hx, t, ht⟩
    · exact .inl hx
    · exact .inr ⟨hx, hloc t b a ht⟩
  last := by
    rw [htail, hnext _ h.mem_tail]
    exact h.last

/-- A new last cell, with the gap before it. -/
theorem Chain.snoc (h : Chain s q) (hc : c ∉ q) (hnc : s.next c = none) (hhead : s'.head = s.head)
    (htail : s'.tail = c) (hnext : s'.next = s.next)
    (hloc : ∀ t b a, s.loc t = .link b a → ∃ u, s'.loc u = .link b a)
    (ht : s'.loc t = .link c s.tail) : Chain s' (q ++ [c]) where
  nodup := List.nodup_append.mpr ⟨h.nodup, List.nodup_singleton c, fun x hx y hy =>
    List.mem_singleton.mp hy ▸ ne_of_mem_of_not_mem hx hc⟩
  head := by
    obtain ⟨x, hx, hh⟩ := h.head
    exact ⟨x, by rw [List.head?_append, hx]; rfl, hhead.trans hh⟩
  tail := by rw [List.getLast?_append, htail]; rfl
  link l₁ a b l₂ heq := by
    rw [hnext]
    rcases List.eq_nil_or_concat l₂ with rfl | ⟨l₂, x, rfl⟩
    · have heq' : q ++ [c] = (l₁ ++ [a]) ++ [b] := by rw [heq]; simp
      obtain ⟨hq, hb⟩ := List.append_inj' heq' rfl
      obtain rfl : c = b := List.singleton_inj.mp hb
      have : s.tail = a := by
        have := h.tail
        rw [hq, List.getLast?_append] at this
        exact (Option.some.inj this).symm
      exact .inr ⟨this ▸ h.last, t, this ▸ ht⟩
    · have heq' : q ++ [c] = (l₁ ++ a :: b :: l₂) ++ [x] := by rw [heq]; simp
      obtain ⟨hq, -⟩ := List.append_inj' heq' rfl
      exact (h.link l₁ a b l₂ hq).imp id fun ⟨hn, v, hv⟩ => ⟨hn, hloc v b a hv⟩
  last := by rw [htail, hnext]; exact hnc

/-! ### The places and the notes -/

theorem LocInv.congr (hnext : s'.next = s.next) (hhead : s'.head = s.head) (hl : LocInv s q l) :
    LocInv s' q l := by
  cases l with
  | xchg | link | testTail | loadNext | setHead =>
    simp only [LocInv, hnext, hhead] at hl ⊢
    exact hl
  | idle | clear | lock | testHead | getHead | wait | unlock => exact hl

theorem LocInv.append (hl : LocInv s q l) (hnext : s'.next = s.next) (hhead : s'.head = s.head) :
    LocInv s' (q ++ [c]) l := by
  have hl' := hl.congr hnext hhead
  cases l with
  | link d a =>
    obtain ⟨⟨l₁, l₂, rfl⟩, hn⟩ := hl'
    exact ⟨⟨l₁, l₂ ++ [c], by simp⟩, hn⟩
  | getHead =>
    obtain ⟨a, b, l, rfl⟩ := hl'
    exact ⟨a, b, l ++ [c], rfl⟩
  | wait ep =>
    obtain ⟨b, l, rfl⟩ := hl'
    exact ⟨b, l ++ [c], rfl⟩
  | loadNext ep =>
    obtain ⟨b, l, rfl, hn⟩ := hl'
    exact ⟨b, l ++ [c], rfl, hn⟩
  | setHead ep nx =>
    obtain ⟨b, l, rfl, hn, hx⟩ := hl'
    exact ⟨b, l ++ [c], rfl, hn, hx⟩
  | idle | clear | xchg | lock | testHead | testTail | unlock => exact hl'

theorem returned_append (l₁ l₂ : List (Note E)) :
    returned (l₁ ++ l₂) = returned l₁ ++ returned l₂ := List.filterMap_append

theorem exchanged_append (l₁ l₂ : List (Note E)) :
    exchanged (l₁ ++ l₂) = exchanged l₁ ++ exchanged l₂ := List.filterMap_append

theorem users_append (l₁ l₂ : List (Cell E)) : users (l₁ ++ l₂) = users l₁ ++ users l₂ := by
  simp [users]

theorem nulls_snoc {log : List (Note E)} {n : Note E} (hn : n = .null → returned log = exchanged log)
    (h : ∀ l₁ l₂, log = l₁ ++ .null :: l₂ → returned l₁ = exchanged l₁) :
    ∀ l₁ l₂, log ++ [n] = l₁ ++ .null :: l₂ → returned l₁ = exchanged l₁ := by
  intro l₁ l₂ heq
  rcases List.eq_nil_or_concat l₂ with rfl | ⟨l₂, x, rfl⟩
  · obtain ⟨rfl, hx⟩ := List.append_inj' heq rfl
    exact hn (List.singleton_inj.mp hx)
  · have heq' : log ++ [n] = (l₁ ++ .null :: l₂) ++ [x] := by rw [heq]; simp
    exact h l₁ l₂ (List.append_inj' heq' rfl).1

section Threads

variable [DecidableEq τ]

/-- A thread that is not between the `xchg` and the store of `q_push` leaves
the half-done pushes to the others. -/
theorem links_of_ne (hloc : s'.loc = Function.update s.loc t l)
    (hl : ∀ b a, s.loc t ≠ .link b a) (v : τ) (b a : Cell E) (hv : s.loc v = .link b a) :
    ∃ u, s'.loc u = .link b a := by
  refine ⟨v, ?_⟩
  rw [update_ne hloc (fun h => hl b a (h ▸ hv)), hv]

theorem taken_congr (hloc : s'.loc = Function.update s.loc t l) (hm : s'.mutex = s.mutex)
    (ht : takes l = takes (s.loc t)) : s'.taken = s.taken := by
  have h : ∀ u, takes (s'.loc u) = takes (s.loc u) := proj_update hloc takes ht
  rw [St.taken, St.taken, hm]
  simp only [h]

/-- A step that leaves the chain's cells, the mutex and the elements with whom
they are. -/
theorem InvOf.quiet (h : InvOf s q) (hloc : s'.loc = Function.update s.loc t l)
    (hc : Chain s' q) (hl : LocInv s' q l)
    (hu : ∀ u, u ≠ t → LocInv s q (s.loc u) → LocInv s' q (s.loc u))
    (hm : s'.mutex = s.mutex) (hb : s'.busy = s.busy) (hholds : holds l = holds (s.loc t))
    (haway : Wf.away l = Wf.away (s.loc t)) (hwork : work l = work (s.loc t) ∨ work l = none)
    (hbooks : returned s'.log ++ s'.taken = returned s.log ++ s.taken)
    (hex : exchanged s'.log = exchanged s.log)
    (hnulls : ∀ l₁ l₂, s'.log = l₁ ++ .null :: l₂ → returned l₁ = exchanged l₁) :
    InvOf s' q := by
  have hawayAll : ∀ u, Wf.away (s'.loc u) = Wf.away (s.loc u) := proj_update hloc Wf.away haway
  have hworkAll : ∀ u c, work (s'.loc u) = some c → work (s.loc u) = some c := some_update hloc work hwork
  exact
    { chain := hc
      loc := forall_update (P := fun _ x => LocInv s' q x) hloc hl fun u hne => hu u hne (h.loc u)
      mutex := forall_update (P := fun u x => s'.mutex = some u ↔ holds x = true) hloc
        (by rw [hm, hholds]; exact h.mutex t) fun u _ => by rw [hm]; exact h.mutex u
      away := fun u c hx => h.away u c (hawayAll u ▸ hx)
      one := fun u v c hx hy => h.one u v c (hworkAll u c hx) (hworkAll v c hy)
      dummy := h.dummy.imp id fun ⟨u, hx⟩ => ⟨u, (hawayAll u).trans hx⟩
      busyIn := fun e he => hb ▸ h.busyIn e he
      busyWork := fun u e hx => hb ▸ h.busyWork u e (hworkAll u _ hx)
      books := by rw [hbooks, hex]; exact h.books
      nulls := hnulls }

/-! ### The steps -/

/-- A thread goes on to a place where it works on the same cells. -/
theorem InvOf.walk (h : InvOf s q) (hl : LocInv s q l) (hlink : ∀ b a, s.loc t ≠ .link b a)
    (hholds : holds l = holds (s.loc t)) (haway : Wf.away l = Wf.away (s.loc t))
    (hwork : work l = work (s.loc t)) (htakes : takes l = takes (s.loc t)) :
    InvOf (s.goto t l) q := by
  have hloc : (s.goto t l).loc = Function.update s.loc t l := rfl
  refine h.quiet hloc (h.chain.congr rfl rfl (fun _ _ => rfl) (links_of_ne hloc hlink))
    (hl.congr rfl rfl) (fun u _ hu => hu.congr rfl rfl) rfl rfl hholds haway (.inl hwork) ?_ rfl
    h.nulls
  rw [taken_congr hloc rfl htakes]
  rfl

variable [DecidableEq E]

omit [DecidableEq τ] in
theorem LocInv.store_away (hc : c ∉ q) (hl : LocInv s q l) : LocInv (s.store c none) q l := by
  have hne : ∀ x ∈ q, (s.store c none).next x = s.next x := fun x hx =>
    Function.update_of_ne (ne_of_mem_of_not_mem hx hc) _ _
  cases l with
  | xchg d =>
    by_cases hd : d = c
    · subst hd
      exact Function.update_self ..
    · exact (Function.update_of_ne hd _ _).trans hl
  | link d a =>
    obtain ⟨⟨l₁, l₂, rfl⟩, hn⟩ := hl
    exact ⟨⟨l₁, l₂, rfl⟩, (hne a (by simp)).trans hn⟩
  | loadNext ep =>
    obtain ⟨b, l, rfl, hn⟩ := hl
    exact ⟨b, l, rfl, (hne ep (by simp)).trans hn⟩
  | setHead ep nx =>
    obtain ⟨b, l, rfl, hn, hx⟩ := hl
    exact ⟨b, l, rfl, (hne ep (by simp)).trans hn, hx⟩
  | idle | clear | lock | testHead | testTail | getHead | wait | unlock => exact hl

/-- `ep->next = NULL`, while `ep` is not in the chain. -/
theorem InvOf.clear (h : InvOf s q) (hl : s.loc t = .clear c) :
    InvOf ((s.store c none).goto t (.xchg c)) q := by
  have hloc : ((s.store c none).goto t (.xchg c)).loc = Function.update s.loc t (.xchg c) := rfl
  have hc : c ∉ q := h.away t c (by rw [hl]; rfl)
  have hnext : ((s.store c none).goto t (.xchg c)).next c = none := Function.update_self ..
  refine h.quiet hloc ?_ hnext (fun u _ hu => (hu.store_away hc).congr rfl rfl) rfl rfl ?_ ?_ ?_ ?_
    rfl h.nulls
  · refine h.chain.congr rfl rfl (fun x hx => ?_) (links_of_ne hloc (by simp [hl]))
    exact Function.update_of_ne (ne_of_mem_of_not_mem hx hc) _ _
  · rw [hl]
    cases c <;> rfl
  · rw [hl]
    rfl
  · rw [hl]
    exact .inl rfl
  · rw [taken_congr hloc rfl (by rw [hl]; rfl)]
    rfl

/-- `*tail = ep` closes the gap before `ep`. -/
theorem InvOf.link (h : InvOf s q) (hl : s.loc t = .link c a) (hll : LocInv s q l)
    (hlink : ∀ b a, l ≠ .link b a) (hx : ∀ c, l ≠ .xchg c) (hn : ∀ c, l ≠ .loadNext c)
    (hs : ∀ c n, l ≠ .setHead c n) (hholds : holds l = holds (s.loc t)) (haway : Wf.away l = none)
    (hwork : work l = none) (htakes : takes l = []) (ev : List (Ev τ (QueueOp (Cell E)) (Res (Cell E)))) :
    InvOf ({ s.store a (some c) with hist := ev }.goto t l) q := by
  set s' := { s.store a (some c) with hist := ev }.goto t l with hs'
  have hloc : s'.loc = Function.update s.loc t l := rfl
  have hself : s'.next a = some c := Function.update_self ..
  have hne : ∀ x, x ≠ a → s'.next x = s.next x := fun x hx => Function.update_of_ne hx _ _
  have hlt := h.loc t
  rw [hl] at hlt
  obtain ⟨⟨l₁, l₂, hq⟩, hna⟩ := hlt
  have hother : ∀ u b x, u ≠ t → s.loc u = .link b x → x ≠ a := by
    rintro u b x hu hlu rfl
    have hlu' := h.loc u
    rw [hlu] at hlu'
    obtain ⟨⟨l₃, l₄, hq'⟩, -⟩ := hlu'
    have hbc : b = c := Conc.Chain.succ_unique h.chain.nodup hq' hq
    exact hu (h.one u t c (by rw [hlu, hbc]; rfl) (by rw [hl]; rfl))
  refine h.quiet hloc ?_ ?_ ?_ rfl rfl hholds (by rw [haway, hl]; rfl) (.inr hwork) ?_ rfl h.nulls
  · refine ⟨h.chain.nodup, h.chain.head, h.chain.tail, fun l₃ x b l₄ hq' => ?_, ?_⟩
    · by_cases hxa : x = a
      · subst hxa
        rw [hself, Conc.Chain.succ_unique h.chain.nodup hq' hq]
        exact .inl rfl
      · rw [hne x hxa]
        refine (h.chain.link l₃ x b l₄ hq').imp id fun ⟨hx, v, hv⟩ => ⟨hx, v, ?_⟩
        rw [update_ne hloc, hv]
        rintro rfl
        rw [hl] at hv
        injection hv with _ hv
        exact hxa hv.symm
    · exact (hne s.tail (Chain.tail_ne (s := s) (hq ▸ h.chain))).trans h.chain.last
  · cases l with
    | link b a => exact absurd rfl (hlink b a)
    | xchg c => exact absurd rfl (hx c)
    | loadNext c => exact absurd rfl (hn c)
    | setHead c n => exact absurd rfl (hs c n)
    | idle | clear | lock | testHead | testTail | getHead | wait | unlock => exact hll
  · intro u hu hlu
    have hgap : ∀ x b, s.next x = some b → s'.next x = some b := fun x b hx =>
      (hne x (by rintro rfl; rw [hna] at hx; cases hx)).trans hx
    cases hlu' : s.loc u with
    | xchg d =>
      rw [hlu'] at hlu
      have hd : d ∉ q := h.away u d (by rw [hlu']; rfl)
      exact (hne d (fun he => hd (by rw [he, hq]; simp))).trans hlu
    | link b x =>
      rw [hlu'] at hlu
      exact ⟨hlu.1, (hne x (hother u b x hu hlu')).trans hlu.2⟩
    | loadNext ep =>
      rw [hlu'] at hlu
      obtain ⟨b, l, hq', hn⟩ := hlu
      exact ⟨b, l, hq', hgap ep b hn⟩
    | setHead ep nx =>
      rw [hlu'] at hlu
      obtain ⟨b, l, hq', hn, hx⟩ := hlu
      exact ⟨b, l, hq', hgap ep b hn, hx⟩
    | idle | clear | lock | testHead | testTail | getHead | wait | unlock =>
      rw [hlu'] at hlu
      exact hlu
  · rw [taken_congr hloc rfl (by rw [htakes, hl]; rfl)]
    rfl

/-! ### The tail exchange -/

omit [DecidableEq τ] [DecidableEq E] in
theorem exchange_eq (s : St τ E) (c : Cell E) : s.exchange c =
    { s with tail := c, log := (s.exchange c).log } := by
  cases c <;> rfl

omit [DecidableEq E] in
/-- `xchg(&qp->tail, ep)`. -/
theorem InvOf.exchange (h : InvOf s q) (hl : s.loc t = .xchg c) :
    InvOf ((s.exchange c).goto t (.link c s.tail)) (q ++ [c]) := by
  set s' := (s.exchange c).goto t (.link c s.tail) with hs'
  have hloc : s'.loc = Function.update s.loc t (.link c s.tail) := by
    rw [hs', exchange_eq]
    rfl
  have hhead : s'.head = s.head := by rw [hs', exchange_eq]; rfl
  have htail : s'.tail = c := by rw [hs', exchange_eq]; rfl
  have hnext : s'.next = s.next := by rw [hs', exchange_eq]; rfl
  have hmutex : s'.mutex = s.mutex := by rw [hs', exchange_eq]; rfl
  have hbusy : s'.busy = s.busy := by rw [hs', exchange_eq]; rfl
  have hc : c ∉ q := h.away t c (by rw [hl]; rfl)
  have hnc : s.next c = none := by
    have := h.loc t
    rwa [hl] at this
  have hwork : ∀ u d, work (s'.loc u) = some d → work (s.loc u) = some d :=
    forall_update (P := fun u x => ∀ d, work x = some d → work (s.loc u) = some d) hloc
      (fun d hx => by rw [hl]; exact hx) fun _ _ _ hx => hx
  have hchain : Chain s' (q ++ [c]) :=
    h.chain.snoc hc hnc hhead htail hnext (links_of_ne hloc (by simp [hl])) (update_self hloc)
  refine
    { chain := hchain
      loc := forall_update (P := fun _ x => LocInv s' (q ++ [c]) x) hloc ?_ fun u _ =>
        (h.loc u).append hnext hhead
      mutex := forall_update (P := fun u x => s'.mutex = some u ↔ holds x = true) hloc ?_
        fun u _ => by rw [hmutex]; exact h.mutex u
      away := forall_update (P := fun _ x => ∀ d, Wf.away x = some d → d ∉ q ++ [c]) hloc
        (fun d hx => by cases hx) fun u hu d hx => ?_
      one := fun u v d hx hy => h.one u v d (hwork u d hx) (hwork v d hy)
      dummy := ?_
      busyIn := fun e he => ?_
      busyWork := fun u e hx => hbusy ▸ h.busyWork u e (hwork u _ hx)
      books := ?_
      nulls := ?_ }
  · obtain ⟨l, hq⟩ := List.getLast?_eq_some_iff.mp h.chain.tail
    exact ⟨⟨l, [], by rw [hq]; simp⟩, hnext ▸ h.chain.last⟩
  · rw [hmutex, h.mutex t, hl]
    cases c <;> rfl
  · rw [List.mem_append, List.mem_singleton]
    rintro (hd | rfl)
    · exact h.away u d hx hd
    · have hw : work (s.loc u) = some d := by
        revert hx
        cases s.loc u <;> simp [Wf.away, work]
      exact hu (h.one u t d hw (by rw [hl]; rfl))
  · rcases h.dummy with hd | ⟨u, hd⟩
    · exact .inl (List.mem_append_left _ hd)
    · by_cases hu : u = t
      · subst hu
        rw [hl] at hd
        exact .inl (List.mem_append_right _ (List.mem_singleton.mpr (Option.some.inj hd).symm))
      · exact .inr ⟨u, by rw [update_ne hloc hu, hd]⟩
  · rw [hbusy]
    rcases List.mem_append.mp he with he | he
    · exact h.busyIn e he
    · exact h.busyWork t e (by rw [hl, List.mem_singleton.mp he]; rfl)
  · have htaken : s'.taken = s.taken := taken_congr hloc hmutex (by rw [hl]; rfl)
    have hb := h.books
    cases c with
    | dummy =>
      rw [htaken, users_append, show users [Cell.dummy (E := E)] = [] from rfl, List.append_nil]
      exact hb
    | el e =>
      have hlog : s'.log = s.log ++ [.exchanged e] := rfl
      rw [htaken, hlog, returned_append, exchanged_append, users_append, ← hb]
      simp [returned, exchanged, users]
  · cases c with
    | dummy => exact h.nulls
    | el e => exact nulls_snoc (by simp) h.nulls

/-! ### Under the mutex -/

omit [DecidableEq τ] [DecidableEq E] in
theorem InvOf.holder_eq (h : InvOf s q) (ht : holds (s.loc t) = true)
    (hu : holds (s.loc u) = true) : u = t :=
  Option.some.inj (((h.mutex u).mpr hu).symm.trans ((h.mutex t).mpr ht))

omit [DecidableEq τ] [DecidableEq E] in
theorem InvOf.taken_eq (h : InvOf s q) (ht : holds (s.loc t) = true) : s.taken = takes (s.loc t) := by
  rw [St.taken, (h.mutex t).mpr ht]
  rfl

omit [DecidableEq τ] in
omit [DecidableEq E] in
/-- No thread works on the first cell, as long as it is in the chain. -/
theorem InvOf.head_free (h : InvOf s (c :: q)) (u : τ) : work (s.loc u) ≠ some c := by
  intro hw
  have hin : Wf.away (s.loc u) = some c → False := fun ha => h.away u c ha List.mem_cons_self
  have hl := h.loc u
  cases hu : s.loc u with
  | link d a =>
    rw [hu] at hw hl
    obtain ⟨⟨l₁, l₂, heq⟩, -⟩ := hl
    obtain rfl : d = c := Option.some.inj hw
    have hn := h.chain.nodup
    cases l₁ with
    | nil =>
      simp only [List.nil_append, List.cons.injEq] at heq
      rw [heq.2] at hn
      simp at hn
    | cons x l₁ =>
      simp only [List.cons_append, List.cons.injEq] at heq
      rw [heq.2] at hn
      simp at hn
  | clear | xchg | unlock => exact hin (by rw [hu] at hw ⊢; exact hw)
  | idle | lock | testHead | testTail | getHead | wait | loadNext | setHead =>
    rw [hu] at hw
    cases hw

omit [DecidableEq τ] [DecidableEq E] in
theorem Chain.drop (h : Chain s (c :: b :: q)) (hhead : s'.head = some b) (htail : s'.tail = s.tail)
    (hnext : s'.next = s.next) (hloc : ∀ t b a, s.loc t = .link b a → ∃ u, s'.loc u = .link b a) :
    Chain s' (b :: q) where
  nodup := (List.nodup_cons.mp h.nodup).2
  head := ⟨b, rfl, hhead⟩
  tail := by rw [htail, ← h.tail, List.getLast?_cons_cons]
  link l₁ x y l₂ heq := by
    rw [hnext]
    exact (h.link (c :: l₁) x y l₂ (by rw [heq]; rfl)).imp id fun ⟨hn, v, hv⟩ => ⟨hn, hloc v y x hv⟩
  last := by rw [htail, hnext]; exact h.last

/-- `qp->head = next` takes the first cell out of the chain. -/
theorem InvOf.setHead {nx : Option (Cell E)} (h : InvOf s q) (hl : s.loc t = .setHead c nx) :
    ∃ b r, q = c :: b :: r ∧ nx = some b ∧
      InvOf ({ s with head := nx }.goto t
        (if c = Cell.dummy then .clear .dummy else .unlock (some c))) (b :: r) := by
  have hlt := h.loc t
  rw [hl] at hlt
  obtain ⟨b, r, rfl, hn, rfl⟩ := hlt
  refine ⟨b, r, rfl, rfl, ?_⟩
  set l : Loc E := if c = Cell.dummy then .clear .dummy else .unlock (some c) with hldef
  set s' := { s with head := some b }.goto t l with hs'
  have hloc : s'.loc = Function.update s.loc t l := rfl
  have hawayl : Wf.away l = some c := by
    rw [hldef]
    split
    · rename_i hc
      rw [hc]
      rfl
    · rfl
  have hworkl : work l = some c := by
    rw [hldef]
    split
    · rename_i hc
      rw [hc]
      rfl
    · rfl
  have hholdsl : holds l = true := by
    rw [hldef]
    split <;> rfl
  have ht : holds (s.loc t) = true := by rw [hl]; rfl
  have hne : ∀ u, u ≠ t → holds (s.loc u) ≠ true := fun u hu hh => hu (h.holder_eq ht hh)
  have hcn : c ∉ b :: r := (List.nodup_cons.mp h.chain.nodup).1
  refine
    { chain := h.chain.drop rfl rfl rfl (links_of_ne hloc (by simp [hl]))
      loc := forall_update (P := fun _ x => LocInv s' (b :: r) x) hloc ?_ fun u hu => ?_
      mutex := forall_update (P := fun u x => s'.mutex = some u ↔ holds x = true) hloc
        (iff_of_true ((h.mutex t).mpr ht) hholdsl) fun u _ => h.mutex u
      away := forall_update (P := fun _ x => ∀ d, Wf.away x = some d → d ∉ b :: r) hloc
        (fun d hx => by rw [hawayl] at hx; exact Option.some.inj hx ▸ hcn)
        fun u _ d hx hd => h.away u d hx (List.mem_cons_of_mem _ hd)
      one := ?_
      dummy := ?_
      busyIn := fun e he => h.busyIn e (List.mem_cons_of_mem _ he)
      busyWork := forall_update (P := fun _ x => ∀ e, work x = some (.el e) → s'.busy e = true) hloc
        (fun e hx => by
          rw [hworkl] at hx
          exact h.busyIn e (Option.some.inj hx ▸ List.mem_cons_self)) fun u _ e hx => h.busyWork u e hx
      books := ?_
      nulls := h.nulls }
  · rw [hldef]
    split
    · trivial
    · rename_i hc
      exact fun he => hc (Option.some.inj he)
  · have hlu := h.loc u
    have hnu := hne u hu
    cases hu' : s.loc u with
    | link d a =>
      rw [hu'] at hlu
      obtain ⟨⟨l₁, l₂, heq⟩, hna⟩ := hlu
      cases l₁ with
      | nil =>
        simp only [List.nil_append, List.cons.injEq] at heq
        rw [← heq.1, hn] at hna
        cases hna
      | cons x l₁ =>
        simp only [List.cons_append, List.cons.injEq] at heq
        exact ⟨⟨l₁, l₂, heq.2⟩, hna⟩
    | xchg d =>
      rw [hu'] at hlu
      exact hlu
    | idle | clear | lock => trivial
    | testHead | testTail | getHead | wait | loadNext | setHead | unlock =>
      rw [hu'] at hnu
      exact absurd rfl hnu
  · have hnw : ∀ u, u ≠ t → work (s'.loc u) ≠ some c := fun u hu => by
      rw [update_ne hloc hu]
      exact h.head_free u
    have hold : ∀ u d, work (s'.loc u) = some d → u = t ∧ d = c ∨ u ≠ t ∧ work (s.loc u) = some d :=
      fun u d hx => by
        by_cases hu : u = t
        · rw [hu, update_self hloc, hworkl] at hx
          exact .inl ⟨hu, (Option.some.inj hx).symm⟩
        · exact .inr ⟨hu, by rwa [update_ne hloc hu] at hx⟩
    intro u v d hx hy
    rcases hold u d hx with ⟨hu, rfl⟩ | ⟨hu, hx'⟩
    · by_contra hv
      exact hnw v (fun hv' => hv (hu.trans hv'.symm)) hy
    · rcases hold v d hy with ⟨_, rfl⟩ | ⟨hv, hy'⟩
      · exact absurd hx (hnw u hu)
      · exact h.one u v d hx' hy'
  · by_cases hc : c = .dummy
    · exact .inr ⟨t, by rw [update_self hloc, hawayl, hc]⟩
    · rcases h.dummy with hd | ⟨u, hd⟩
      · exact .inl ((List.mem_cons.mp hd).resolve_left (Ne.symm hc))
      · refine .inr ⟨u, ?_⟩
        rwa [update_ne hloc]
        rintro rfl
        rw [hl] at hd
        cases hd
  · have hm : s'.mutex = some t := (h.mutex t).mpr ht
    have htaken : s'.taken = takes l := by
      rw [St.taken, hm, Option.map_some, update_self hloc]
      rfl
    have hb := h.books
    rw [h.taken_eq ht, hl] at hb
    rw [htaken, show s'.log = s.log from rfl, ← hb, hldef]
    cases c with
    | dummy => rfl
    | el e => simp [takes, users]

omit [DecidableEq E] in
/-- `spin_lock(&qp->mutex)`. -/
theorem InvOf.lock (h : InvOf s q) (hl : s.loc t = .lock) (hm : s.mutex = none) :
    InvOf ({ s with mutex := some t }.goto t .testHead) q := by
  set s' := { s with mutex := some t }.goto t .testHead with hs'
  have hloc : s'.loc = Function.update s.loc t .testHead := rfl
  have hnone : ∀ u, holds (s.loc u) ≠ true := fun u hu => by
    rw [← h.mutex u, hm] at hu
    cases hu
  have hawayAll : ∀ u, Wf.away (s'.loc u) = Wf.away (s.loc u) := proj_update hloc Wf.away (by rw [hl]; rfl)
  have hworkAll : ∀ u, work (s'.loc u) = work (s.loc u) := proj_update hloc work (by rw [hl]; rfl)
  exact
    { chain := h.chain.congr rfl rfl (fun _ _ => rfl) (links_of_ne hloc (by simp [hl]))
      loc := forall_update (P := fun _ x => LocInv s' q x) hloc trivial fun u _ => (h.loc u).congr rfl rfl
      mutex := forall_update (P := fun u x => some t = some u ↔ holds x = true) hloc
        (iff_of_true rfl rfl) fun u hu => iff_of_false (by simpa using hu.symm) (hnone u)
      away := fun u d hx => h.away u d (hawayAll u ▸ hx)
      one := fun u v d hx hy => h.one u v d (hworkAll u ▸ hx) (hworkAll v ▸ hy)
      dummy := h.dummy.imp id fun ⟨u, hx⟩ => ⟨u, (hawayAll u).trans hx⟩
      busyIn := h.busyIn
      busyWork := fun u e hx => h.busyWork u e (hworkAll u ▸ hx)
      books := by
        have hb := h.books
        have htaken : s'.taken = [] := by
          rw [St.taken, show s'.mutex = some t from rfl, Option.map_some, update_self hloc]
          rfl
        rw [St.taken, hm] at hb
        rw [htaken]
        exact hb
      nulls := h.nulls }

omit [DecidableEq E] in
/-- `__q_pop` finds the dummy first and last. -/
theorem InvOf.null (h : InvOf s q) (hl : s.loc t = .testTail) (ht : s.tail = .dummy) :
    users q = [] ∧ InvOf ((s.note .null).goto t (.unlock none)) q := by
  have hhead := h.loc t
  rw [hl] at hhead
  have hq : q = [.dummy] := by
    obtain ⟨c, hc, hs⟩ := h.chain.head
    obtain rfl : c = .dummy := Option.some.inj (hs.symm.trans hhead)
    have hlast := h.chain.tail
    have hn := h.chain.nodup
    rw [ht] at hlast
    match q, hc with
    | [_], hc => rw [Option.some.inj hc]
    | _ :: b :: r, hc =>
      obtain rfl := Option.some.inj hc
      rw [List.getLast?_cons_cons] at hlast
      exact absurd (List.mem_of_getLast? hlast) (List.nodup_cons.mp hn).1
  have hloc : ((s.note .null).goto t (.unlock none)).loc = Function.update s.loc t (.unlock none) := rfl
  have hb := h.books
  rw [h.taken_eq (by rw [hl]; rfl), hl, hq] at hb
  have hlog : ((s.note .null).goto t (.unlock none)).log = s.log ++ [.null] := rfl
  refine ⟨by rw [hq]; rfl, h.quiet hloc
    (h.chain.congr rfl rfl (fun _ _ => rfl) (links_of_ne hloc (by simp [hl]))) (by simp [LocInv])
    (fun u _ hu => hu.congr rfl rfl) rfl rfl (by rw [hl]; rfl) (by rw [hl]; rfl)
    (.inl (by rw [hl]; rfl)) ?_ ?_ ?_⟩
  · rw [taken_congr hloc rfl (by rw [hl]; rfl), hlog, returned_append]
    simp [returned, St.taken]
  · rw [hlog, exchanged_append]
    simp [exchanged]
  · rw [hlog]
    refine nulls_snoc (fun _ => ?_) h.nulls
    simpa [takes, users] using hb

omit [DecidableEq E] in
/-- `spin_unlock(&qp->mutex)` and the return; an element that is returned is
the caller's again. -/
theorem InvOf.unlock {x : Option (Cell E)} (h : InvOf s q) (hl : s.loc t = .unlock x)
    (hloc : s'.loc = Function.update s.loc t .idle) (hhead : s'.head = s.head)
    (htail : s'.tail = s.tail) (hnext : s'.next = s.next) (hm : s'.mutex = none)
    (hbusy : ∀ e, x ≠ some (.el e) → s'.busy e = s.busy e)
    (hlog : s'.log = s.log ++ (x.map Note.returned).toList) : InvOf s' q := by
  have ht : holds (s.loc t) = true := by rw [hl]; rfl
  have hworkt : work (s.loc t) = x := by rw [hl]; rfl
  have hawayt : Wf.away (s.loc t) = x := by rw [hl]; rfl
  have hworkAll : ∀ u c, work (s'.loc u) = some c → u ≠ t ∧ work (s.loc u) = some c :=
    forall_update (P := fun u y => ∀ c, work y = some c → u ≠ t ∧ work (s.loc u) = some c) hloc
      (fun c hc => by cases hc) fun u hu c hc => ⟨hu, hc⟩
  refine
    { chain := h.chain.congr hhead htail (fun _ _ => by rw [hnext]) (links_of_ne hloc (by simp [hl]))
      loc := forall_update (P := fun _ x => LocInv s' q x) hloc trivial
        fun u _ => (h.loc u).congr hnext hhead
      mutex := forall_update (P := fun u x => s'.mutex = some u ↔ holds x = true) hloc
        (by rw [hm]; simp [holds]) fun u hu => ?_
      away := forall_update (P := fun _ x => ∀ c, Wf.away x = some c → c ∉ q) hloc
        (fun c hc => by cases hc) fun u _ => h.away u
      one := fun u v c hx hy => h.one u v c (hworkAll u c hx).2 (hworkAll v c hy).2
      dummy := ?_
      busyIn := fun e he => ?_
      busyWork := fun u e hx => ?_
      books := ?_
      nulls := ?_ }
  · rw [hm]
    exact iff_of_false (by simp) fun hh => hu (h.holder_eq ht hh)
  · refine h.dummy.imp id fun ⟨u, hu⟩ => ⟨u, ?_⟩
    rwa [update_ne hloc]
    rintro rfl
    have hx := h.loc u
    rw [hl] at hx
    exact hx (hawayt.symm.trans hu)
  · rw [hbusy e fun hx => h.away t _ (hawayt.trans hx) he]
    exact h.busyIn e he
  · obtain ⟨hu, hx⟩ := hworkAll u _ hx
    rw [hbusy e fun hx' => hu (h.one u t _ hx (hworkt.trans hx'))]
    exact h.busyWork u e hx
  · have htaken : s'.taken = [] := by
      rw [St.taken, hm]
      rfl
    have hb := h.books
    rw [h.taken_eq ht, hl] at hb
    rw [htaken, hlog, returned_append, exchanged_append, ← hb]
    cases x with
    | none => simp [takes, returned, exchanged]
    | some c => simp [takes, returned, exchanged]
  · rw [hlog]
    cases x with
    | none => simpa using h.nulls
    | some c => exact nulls_snoc (by simp) h.nulls

/-- `q_push(ep)` is called with an element that is the caller's. -/
theorem InvOf.push {e : E} (h : InvOf s q) (hl : s.loc t = .idle) (hb : s.busy e = false) :
    InvOf ((s.hand e true).goto t (.clear (.el e))) q := by
  set s' := (s.hand e true).goto t (.clear (.el e)) with hs'
  have hloc : s'.loc = Function.update s.loc t (.clear (.el e)) := rfl
  have hbusy : ∀ x, s.busy x = true → s'.busy x = true := fun x hx => by
    show Function.update s.busy e true x = true
    by_cases hxe : x = e
    · rw [hxe, Function.update_self]
    · rwa [Function.update_of_ne hxe]
  have hfree : ∀ u, work (s.loc u) ≠ some (.el e) := fun u hu => by
    rw [h.busyWork u e hu] at hb
    cases hb
  have hold : ∀ u c, work (s'.loc u) = some c →
      u = t ∧ c = .el e ∨ u ≠ t ∧ work (s.loc u) = some c :=
    forall_update (P := fun u y => ∀ c, work y = some c →
      u = t ∧ c = .el e ∨ u ≠ t ∧ work (s.loc u) = some c) hloc
      (fun c hc => .inl ⟨rfl, (Option.some.inj hc).symm⟩) fun u hu c hc => .inr ⟨hu, hc⟩
  refine
    { chain := h.chain.congr rfl rfl (fun _ _ => rfl) (links_of_ne hloc (by simp [hl]))
      loc := forall_update (P := fun _ x => LocInv s' q x) hloc trivial fun u _ => (h.loc u).congr rfl rfl
      mutex := forall_update (P := fun u x => s'.mutex = some u ↔ holds x = true) hloc
        (by have := h.mutex t; rwa [hl] at this) fun u _ => h.mutex u
      away := forall_update (P := fun _ x => ∀ c, Wf.away x = some c → c ∉ q) hloc
        (fun c hc hin => ?_) fun u _ => h.away u
      one := fun u v c hx hy => ?_
      dummy := ?_
      busyIn := fun x hx => hbusy x (h.busyIn x hx)
      busyWork := fun u x hx => ?_
      books := ?_
      nulls := h.nulls }
  · obtain rfl : Cell.el e = c := Option.some.inj hc
    rw [h.busyIn e hin] at hb
    cases hb
  · rcases hold u c hx with ⟨rfl, rfl⟩ | ⟨hu, hx'⟩
    · rcases hold v _ hy with ⟨hv, -⟩ | ⟨_, hy'⟩
      · exact hv.symm
      · exact absurd hy' (hfree v)
    · rcases hold v c hy with ⟨_, rfl⟩ | ⟨_, hy'⟩
      · exact absurd hx' (hfree u)
      · exact h.one u v c hx' hy'
  · refine h.dummy.imp id fun ⟨u, hu⟩ => ⟨u, ?_⟩
    rwa [update_ne hloc]
    rintro rfl
    rw [hl] at hu
    cases hu
  · rcases hold u _ hx with ⟨_, hx'⟩ | ⟨_, hx'⟩
    · obtain rfl : x = e := by injection hx'
      exact Function.update_self ..
    · exact hbusy x (h.busyWork u x hx')
  · rw [taken_congr hloc rfl (by rw [hl]; rfl)]
    exact h.books

end Threads

end Wf
end Queue
end Perfbook
