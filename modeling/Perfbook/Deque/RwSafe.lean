/-
# Calls that do not collide

No two calls that collide are in a `deq_` function at the same time (`Calm`): who
keeps the read lock finds no such call running, and who has the lock for writing
is alone. So the read in `cds_list_empty` is of a link that the thread at the
other end does not store either, and what the two are going to do is apart.

Key definitions: `inDeq`, `Calm`.
Key theorems: `inDeq_next`, `calm_next`, `InvOf.ahead_rest`, `InvOf.ahead_apart`, `InvOf.safe`, `deque_safe`,
`pops_one_element_twice`.
-/
import Perfbook.Deque.RwInv

namespace Perfbook
namespace Deque
namespace Rw

open Conc

variable {τ E : Type} [DecidableEq τ] [Fintype τ] [DecidableEq E] {L : CdsList E} {s s' : St τ E} {a : Act τ E}
  {t u : τ} {l : Loc E} {o o' : Op E} {d : End} {q : List E} {g : τ → Option E} {P : Todo E}
  {p r : Code E (Option (Ptr E))}

/-! ### Who is in a `deq_` function -/

/-- The call that is in its `deq_` function. -/
def inDeq : Loc E → Option (Op E)
  | .test _ d => some (.pop d)
  | .work _ o _ => some o
  | _ => none

omit [DecidableEq E] in
theorem inside_inDeq : inside l = (inDeq l).map Op.side := by cases l <;> rfl

omit [DecidableEq E] in
theorem inDeq_call (h : inDeq l = some o) : o ∈ l.call := by
  cases l with
  | test | work => exact h
  | _ => cases h

omit [DecidableEq τ] [Fintype τ] in
theorem Collide.symm (h : Collide L o o') : Collide L o' o :=
  h.imp Eq.symm Or.symm

/-- A thread comes to a `deq_` function with the read lock kept, or with the lock for writing. -/
theorem inDeq_next (hn : next L a s = some s') : ∃ t l, s'.loc = Function.update s.loc t l ∧
    ∀ o, inDeq l = some o → inDeq (s.loc t) = some o ∨
      (a = .step t ∧ s.loc t = .sub o ∧ 1 ≤ s.counter - o.take) ∨
      (s.writer = none ∧ ∀ u, s.readers u = false) := by
  cases a with
  | pop t d =>
    simp only [next] at hn
    split at hn
    · obtain rfl := Option.some.inj hn
      exact ⟨t, _, rfl, fun o ho => by cases ho⟩
    · cases hn
  | push t d e =>
    simp only [next] at hn
    split at hn
    · split at hn
      · obtain rfl := Option.some.inj hn
        exact ⟨t, _, rfl, fun o ho => by cases ho⟩
      · cases hn
    · cases hn
  | step t =>
    have hs : stepThread L t s = some s' := hn
    unfold stepThread at hs
    cases hl : s.loc t with
    | idle =>
      rw [hl] at hs
      cases hs
    | rdlock o =>
      rw [hl] at hs
      dsimp only at hs
      split at hs
      · obtain rfl := Option.some.inj hs
        exact ⟨t, _, rfl, fun o ho => by cases ho⟩
      · cases hs
    | sub o =>
      rw [hl] at hs
      dsimp only at hs
      split at hs
      · obtain rfl := Option.some.inj hs
        exact ⟨t, _, rfl, fun o ho => by cases ho⟩
      · next hge =>
        obtain rfl := Option.some.inj hs
        have hkeep : 1 ≤ s.counter - o.take := not_lt.mp hge
        cases o with
        | pop | push =>
          refine ⟨t, _, rfl, fun o ho => .inr (.inl ?_)⟩
          cases ho
          exact ⟨rfl, hl, hkeep⟩
    | wrlock o =>
      rw [hl] at hs
      dsimp only at hs
      split at hs
      · next hfree =>
        obtain rfl := Option.some.inj hs
        cases o with
        | pop d => exact ⟨t, _, rfl, fun _ _ => .inr (.inr hfree)⟩
        | push d e => exact ⟨t, _, rfl, fun _ _ => .inr (.inr hfree)⟩
      · cases hs
    | test m d =>
      rw [hl] at hs
      dsimp only at hs
      split at hs <;> obtain rfl := Option.some.inj hs
      · exact ⟨t, _, rfl, fun o ho => by cases ho⟩
      · exact ⟨t, _, rfl, fun o ho => .inl (hl ▸ ho)⟩
    | work m o p =>
      rw [hl] at hs
      cases p with
      | ret e =>
        obtain rfl := Option.some.inj hs
        exact ⟨t, _, rfl, fun o ho => by cases ho⟩
      | read f k | write f x p =>
        obtain rfl := Option.some.inj hs
        exact ⟨t, _, rfl, fun o ho => .inl (hl ▸ ho)⟩
    | unlock o | incNull m d | inc m o e =>
      rw [hl] at hs
      obtain rfl := Option.some.inj hs
      exact ⟨t, _, rfl, fun o ho => by cases ho⟩
    | leave m o e =>
      rw [hl] at hs
      obtain rfl := Option.some.inj hs
      refine ⟨t, .idle, ?_, fun o ho => by cases ho⟩
      rcases e with _ | _ | c <;> cases m <;> rfl

variable (L) in
/-- Calls that collide are not in their `deq_` functions at the same time. -/
def Calm (s : St τ E) : Prop :=
  ∀ t u o o', t ≠ u → inDeq (s.loc t) = some o → inDeq (s.loc u) = some o' → ¬ Collide L o o'

omit [DecidableEq τ] in
/-- Nobody is in a `deq_` function without the lock. -/
theorem InvOf.nobody (h : InvOf L s q g P) (hw : s.writer = none) (hr : ∀ u, s.readers u = false) :
    inDeq (s.loc u) = none := by
  by_contra hne
  obtain ⟨o, ho⟩ := Option.ne_none_iff_exists'.mp hne
  have hin : inside (s.loc u) = some o.side := by rw [inside_inDeq, ho]; rfl
  rcases inside_locked hin with hs | he
  · rw [← h.readers u, hr u] at hs
    cases hs
  · rw [(h.writer u).mpr he] at hw
    cases hw

theorem calm_next (h : InvOf L s q g P) (hc : Calm L s) (hok : Guarded L a s) (hn : next L a s = some s') :
    Calm L s' := by
  obtain ⟨t, l, hloc, hl⟩ := inDeq_next hn
  -- the call that a thread comes with
  have hnew : ∀ u o o', u ≠ t → inDeq l = some o → inDeq (s.loc u) = some o' → ¬ Collide L o o' := by
    intro u o o' hu ho ho'
    rcases hl o ho with hold | ⟨rfl, hsub, hkeep⟩ | ⟨hw, hr⟩
    · exact hc t u o o' hu.symm hold ho'
    · have hg : GuardedAt L t s (s.loc t) := hok
      rw [hsub] at hg
      exact hg hkeep u hu o' (inDeq_call ho')
    · rw [h.nobody hw hr] at ho'
      cases ho'
  intro u v o o' huv hu hv
  by_cases hut : u = t
  · rw [hut, update_self hloc] at hu
    rw [update_ne hloc (hut ▸ huv.symm)] at hv
    exact hnew v o o' (hut ▸ huv.symm) hu hv
  · rw [update_ne hloc hut] at hu
    by_cases hvt : v = t
    · rw [hvt, update_self hloc] at hv
      exact fun hcol => hnew u o' o hut hv hu hcol.symm
    · rw [update_ne hloc hvt] at hv
      exact hc u v o o' huv hu hv

omit [DecidableEq τ] [Fintype τ] in
/-- The read lock is kept while nobody is at the same end. -/
theorem Guarded.endFree (hok : Guarded L a s) : EndFree a s := by
  cases a with
  | pop | push => trivial
  | step t =>
    have hg : GuardedAt L t s (s.loc t) := hok
    show EndFreeAt s (s.loc t)
    unfold EndFreeAt
    split
    · next o hl =>
      intro hkeep u hu
      rw [hl] at hg
      have hut : u ≠ t := by
        rintro rfl
        rw [hl] at hu
        cases hu
      rw [inside_inDeq] at hu
      obtain ⟨o', ho', hside⟩ := Option.map_eq_some_iff.mp hu
      exact hg hkeep u hut o' (inDeq_call ho') (.inl hside.symm)
    · trivial

theorem calm_reach (h : (sys τ L).Reach (Guarded L) s) : Calm L s ∧ ∃ q g P, InvOf L s q g P := by
  refine h.inv (I := fun s => Calm L s ∧ ∃ q g P, InvOf L s q g P)
    (fun s hi => ⟨fun t u o o' _ ht => ?_, _, _, _, inv_init hi⟩) ?_
  · rw [hi.loc t] at ht
    cases ht
  · rintro a s s' ⟨hc, q, g, P, hi⟩ hok hn
    exact ⟨calm_next hi hc hok hn, inv_next hi hok.endFree hn⟩

/-! ### What the deque delivers -/

theorem ahead_inDeq (h : ahead L l = some (d, p)) : ∃ o, inDeq l = some o ∧ o.side = d := by
  cases l with
  | test m d' =>
    obtain ⟨rfl, -⟩ := Prod.mk.inj (Option.some.inj h)
    exact ⟨.pop d', rfl, rfl⟩
  | work m o p' =>
    obtain ⟨rfl, -⟩ := Prod.mk.inj (Option.some.inj h)
    exact ⟨o, rfl, rfl⟩
  | _ => cases h

omit [DecidableEq τ] in
/-- Under the read lock, a thread does what is left of its `deq_` function, after the read of
`cds_list_empty`. -/
theorem InvOf.ahead_rest (h : InvOf L s q g P) (ht : s.readers t = true) (hp : ahead L (s.loc t) = some (d, p)) :
    ∃ p', rest L (s.loc t) = some (d, p') ∧ p.stores s.link = p'.stores s.link ∧
      ∀ f ∈ p.cells s.link, f ∈ p'.cells s.link ∨ f = (.chain, L.empty) ∧ inDeq (s.loc t) = some (.pop d) := by
  cases hl : s.loc t with
  | test m d' =>
    rw [hl] at hp
    obtain ⟨rfl, rfl⟩ := Prod.mk.inj (Option.some.inj hp)
    cases m with
    | rd =>
      have hne : s.link (.chain, L.empty) ≠ .chain := h.head t d' _ ht (by rw [hl]; rfl) L.empty
      refine ⟨_, rfl, ?_, fun f hf => ?_⟩
      · simp only [Prog.stores, if_neg hne]
      · simp only [Prog.cells, if_neg hne, List.mem_cons] at hf
        exact hf.symm.imp_right fun he => ⟨he, rfl⟩
    | wr =>
      rw [h.readers t, hl] at ht
      cases ht
  | work m o p' =>
    rw [hl] at hp
    obtain ⟨rfl, rfl⟩ := Prod.mk.inj (Option.some.inj hp)
    exact ⟨p', rfl, rfl, fun f hf => .inl hf⟩
  | _ =>
    rw [hl] at hp
    cases hp

omit [DecidableEq τ] [Fintype τ] in
theorem End.ne_other (d : End) : d ≠ d.other := by cases d <;> exact nofun

omit [DecidableEq τ] in
/-- **The two ends do not meet**: no thread stores a link that the one at the other end accesses. -/
theorem InvOf.ahead_apart (h : InvOf L s q g P) (hc : Calm L s) (ht : ahead L (s.loc t) = some (d, p))
    (hu : ahead L (s.loc u) = some (d.other, r)) : ∀ w ∈ p.stores s.link, w.1 ∉ r.cells s.link := by
  obtain ⟨o, ho, hside⟩ := ahead_inDeq ht
  obtain ⟨o', ho', hside'⟩ := ahead_inDeq hu
  have hin : ∀ {v o}, inDeq (s.loc v) = some o → inside (s.loc v) = some o.side := fun hv => by
    rw [inside_inDeq, hv]
    rfl
  have hne : t ≠ u := by
    rintro rfl
    rw [ho] at ho'
    exact End.ne_other d (hside.symm.trans (Option.some.inj ho' ▸ hside'))
  -- neither has the lock for writing, since then it would be alone
  have hread : ∀ {v w o o'}, v ≠ w → inDeq (s.loc v) = some o → inDeq (s.loc w) = some o' →
      s.readers v = true := fun {v w o o'} hvw hv hw => by
    rcases inside_locked (hin hv) with hs | he
    · exact (h.readers v).trans hs
    · have hnone := h.only ((h.writer v).mpr he) hvw.symm
      rw [hin hw] at hnone
      cases hnone
  have hrt := hread hne ho ho'
  obtain ⟨p', hp', hstores, -⟩ := h.ahead_rest hrt ht
  obtain ⟨r', hr', -, hcells⟩ := h.ahead_rest (hread hne.symm ho' ho) hu
  intro w hw hf
  rw [hstores] at hw
  rcases hcells w.1 hf with hf | ⟨hf, hpop⟩
  · have happ := h.apart d
    rw [h.doing t d p' hp', h.doing u d.other r' hr'] at happ
    exact happ.left w hw hf
  · -- the read of `cds_list_empty`: at its own end nobody else stores, and nobody looks across
    by_cases hown : d.other.dir = L.empty
    · obtain ⟨a, b, hnear, -⟩ := h.near t d p' hrt hp'
      have hz := hnear.cells w.1 (Prog.stores_cells p' s.link w hw)
      rw [hf, ← hown, End.other_dir] at hz
      rcases hz with hz | hz | hz
      · exact Dir.flip_ne d.dir (Prod.mk.inj hz).2
      · cases hz
      · cases (Prod.mk.inj hz).1
    · exact hc t u o _ hne ho hpop (.inr (.inr hown))

omit [DecidableEq τ] in
theorem InvOf.kept (h : InvOf L s q g P) (hout : ∀ t, inside (s.loc t) = none) :
    IsDeque s.link q ∧ (s.popped ++ q.map Ptr.el).Perm s.pushed := by
  have hrest : ∀ t, rest L (s.loc t) = none := by
    intro t
    by_contra hne
    obtain ⟨⟨d, p⟩, hd⟩ := Option.ne_none_iff_exists'.mp hne
    have := rest_inside hd
    rw [hout t] at this
    cases this
  have hnone : ∀ d t p, rest L (s.loc t) ≠ some (d, p) := fun d t p hd => by
    rw [hrest t] at hd
    cases hd
  obtain ⟨e, he⟩ := h.done .right (hnone .right)
  have hd := h.other_done (hnone .left)
  have hb := h.balance
  rw [Finset.sum_eq_zero fun t _ => taken_none (hrest t), add_zero, Multiset.coe_add] at hb
  rw [show P End.left.other = _ from he] at hd
  exact ⟨hd, Multiset.coe_eq_coe.mp hb⟩

omit [DecidableEq τ] in
theorem InvOf.safe (h : InvOf L s q g P) (hc : Calm L s) : Safe L s where
  oneEnd := h.oneEnd
  apart := fun t u p r ht hu =>
    ⟨h.ahead_apart hc ht hu, h.ahead_apart hc (d := .right) hu ht⟩
  lost := fun hout => ⟨q, h.kept hout⟩
  twice := by
    rw [← Multiset.coe_le, ← h.balance, add_assoc]
    exact Multiset.le_add_right _ _

/-- **The deque is safe** in every run in which a thread keeps the read lock only while no call is running
that collides with its own. -/
theorem deque_safe (h : (sys τ L).Reach (Guarded L) s) : Safe L s := by
  obtain ⟨hc, q, g, P, hi⟩ := calm_reach h
  exact hi.safe hc

/-! ### Runs -/

section Urcu

variable (c : Ptr E) (h : Heap E)

/-- liburcu's `cds_list_add`, statement by statement. -/
def cdsListAdd : Code E Unit :=
  .read (.chain, .next) fun b => .write (b, .prev) c <| .read (.chain, .next) fun b =>
    .write (c, .next) b <| .write (c, .prev) .chain <| .write (.chain, .next) c <| .ret ()

def cdsListAddTail : Code E Unit :=
  .read (.chain, .prev) fun b => .write (b, .next) c <| .write (c, .next) .chain <|
    .read (.chain, .prev) fun b => .write (c, .prev) b <| .write (.chain, .prev) c <| .ret ()

def cdsListDel : Code E Unit :=
  .read (c, .prev) fun a => .read (c, .next) fun b => .write (b, .prev) a <| .write (a, .next) b <| .ret ()

def cdsInitListHead : Code E Unit := .write (c, .prev) c <| .write (c, .next) c <| .ret ()

theorem cdsListAdd_does : (cdsListAdd c).Does h [(.chain, .next)] (addStores .next c h) := by
  constructor
  · rw [List.perm_iff_count]
    intro w
    simp [cdsListAdd, Prog.stores, addStores, Dir.flip, List.count_cons]
    omega
  · simp [cdsListAdd, Prog.cells, addStores, Dir.flip]

theorem cdsListAddTail_does : (cdsListAddTail c).Does h [(.chain, .prev)] (addStores .prev c h) := by
  constructor
  · rw [List.perm_iff_count]
    intro w
    simp [cdsListAddTail, Prog.stores, addStores, Dir.flip, List.count_cons]
    omega
  · simp [cdsListAddTail, Prog.cells, addStores, Dir.flip]

theorem cdsListDel_does : (cdsListDel c).Does h [(c, .next), (c, .prev)] (delStores c h) :=
  ⟨List.Perm.refl _, by simp [cdsListDel, Prog.cells, delStores]⟩

theorem cdsInitListHead_does : (cdsInitListHead c).Does h [] (initStores c) :=
  ⟨List.Perm.swap _ _ _, by simp [cdsInitListHead, Prog.cells, initStores]⟩

end Urcu

/-- liburcu's lists. -/
def urcu (E : Type) [DecidableEq E] : CdsList E where
  add := cdsListAdd
  addTail := cdsListAddTail
  del := cdsListDel
  initHead := cdsInitListHead
  empty := .next
  add_does := cdsListAdd_does
  addTail_does := cdsListAddTail_does
  del_does := cdsListDel_does
  initHead_does := cdsInitListHead_does

/-- After `init_pdeq`, for two threads. -/
def start : St (Fin 2) ℕ :=
  ⟨fun _ => .chain, 0, fun _ => false, none, fun _ => .idle, fun _ => true, [], []⟩

theorem start_init : Init start :=
  ⟨fun _ => rfl, rfl, fun _ => rfl, rfl, fun _ => rfl, rfl, rfl⟩

/-- `m` steps of a thread in a row. -/
def steps (m : ℕ) (t : Fin 2) : List (Act (Fin 2) ℕ) := List.replicate m (.step t)

/-- Thread 0 pushes five elements; the last three times it keeps the read lock. -/
def pushFive : List (Act (Fin 2) ℕ) :=
  .push 0 .right 1 :: steps 13 0 ++ .push 0 .right 2 :: steps 13 0 ++ .push 0 .right 3 :: steps 11 0 ++
    .push 0 .right 4 :: steps 11 0 ++ .push 0 .right 5 :: steps 11 0

/-- One thread pushes at the left end while the other pops at the right end. -/
def bothEnds : List (Act (Fin 2) ℕ) :=
  pushFive ++ .push 0 .left 6 :: steps 4 0 ++ .pop 1 .right :: steps 8 1 ++ steps 3 0 ++ steps 5 1 ++ steps 4 0

theorem deque_safe_bothEnds : ∃ s, (sys (Fin 2) (urcu ℕ)).Reach (Guarded (urcu ℕ)) s ∧
    s.popped = [.el 5] ∧ s.pushed.head? = some (.el 6) ∧ Safe (urcu ℕ) s := by
  have hrun : ((sys (Fin 2) (urcu ℕ)).run (Guarded (urcu ℕ)) bothEnds start).map
      (fun s => (s.popped, s.pushed.head?)) = some ([.el 5], some (.el 6)) := by
    decide +kernel
  obtain ⟨s, hs, hd⟩ := Option.map_eq_some_iff.mp hrun
  obtain ⟨hpopped, hpushed⟩ := Prod.mk.inj hd
  have hr := Sys.run_reach (.init start_init) hs
  exact ⟨s, hr, hpopped, hpushed, deque_safe hr⟩

/-- Two threads pop at the left end, and both keep the read lock. -/
def popTwice : List (Act (Fin 2) ℕ) :=
  pushFive ++ .pop 0 .left :: steps 4 0 ++ .pop 1 .left :: steps 4 1 ++ steps 7 0 ++ steps 7 1

/-- They pop the same element. -/
theorem pops_one_element_twice : ∃ s, (sys (Fin 2) (urcu ℕ)).Reach Sys.always s ∧
    s.popped = [.el 1, .el 1] ∧ s.pushed = [.el 5, .el 4, .el 3, .el 2, .el 1] ∧
    ¬ Safe (urcu ℕ) s := by
  have hrun : ((sys (Fin 2) (urcu ℕ)).run Sys.always popTwice start).map
      (fun s => (s.popped, s.pushed)) =
      some ([.el 1, .el 1], [.el 5, .el 4, .el 3, .el 2, .el 1]) := by
    decide
  obtain ⟨s, hs, hd⟩ := Option.map_eq_some_iff.mp hrun
  obtain ⟨hpopped, hpushed⟩ := Prod.mk.inj hd
  refine ⟨s, Sys.run_reach (.init start_init) hs, hpopped, hpushed, fun h => ?_⟩
  have hle := h.twice.count_le (.el 1)
  rw [hpopped, hpushed] at hle
  exact absurd hle (by decide)

end Rw
end Deque
end Perfbook
