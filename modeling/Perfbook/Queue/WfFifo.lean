/-
# `wfenqueue.c` is a linearizable queue

A push takes effect at its tail exchange, a pop where it moves `head` past a
user's element, or where it finds the dummy first and last. `fifo` adds what
the stress test of the queue checks: the elements come out in the order of
their exchanges, each push at most once, never the dummy, and `NULL` only when
everything exchanged so far has been returned. However many pushes are half
done, every element that was exchanged and not taken is in the chain, once.

Key definition: `Fifo`.
Key theorem: `fifo`.
-/
import Perfbook.Queue.WfInv

namespace Perfbook
namespace Queue
namespace Wf

open Conc

variable {τ E : Type} [DecidableEq τ]

/-- What the users of the queue may rely on. -/
structure Fifo (s : St τ E) : Prop where
  lin : ∃ S p d, Lin (Conc.queue (Cell E)) s.hist S p d
  /-- the `n`-th return is of the `n`-th exchange -/
  order : returned s.log <+: exchanged s.log
  noDummy : Cell.dummy ∉ returned s.log
  null : ∀ l₁ l₂, s.log = l₁ ++ .null :: l₂ → returned l₁ = exchanged l₁
  /-- nothing is detached or doubled -/
  kept : ∃ q, Chain s q ∧ returned s.log ++ s.taken ++ users q = exchanged s.log

theorem dummy_not_exchanged (log : List (Note E)) : Cell.dummy ∉ exchanged log := by
  intro h
  obtain ⟨n, -, hn⟩ := List.mem_filterMap.mp h
  cases n <;> simp at hn

theorem fifo_of_inv {s : St τ E} (h : Inv s) : Fifo s := by
  obtain ⟨q, h, S, hlin⟩ := h
  have hpre : returned s.log <+: exchanged s.log :=
    ⟨s.taken ++ users q, by rw [← List.append_assoc]; exact h.books⟩
  exact
    { lin := ⟨S, _, _, hlin⟩
      order := hpre
      noDummy := fun hd => dummy_not_exchanged s.log (hpre.subset hd)
      null := h.nulls
      kept := ⟨q, h.chain, h.books⟩ }

/-! ### Every run -/

theorem inv_init {s : St τ E} (h : Init s) : Inv s := by
  have hpend : (fun t => pend (s.loc t)) = fun _ => Pend.idle := funext fun t => by rw [h.loc t]; rfl
  refine ⟨[.dummy], ?_, [], ?_⟩
  · exact
      { chain :=
          { nodup := List.nodup_singleton _
            head := ⟨.dummy, rfl, h.head⟩
            tail := by rw [h.tail]; rfl
            link := fun l₁ a b l₂ heq => by
              have := congrArg List.length heq
              simp only [List.length_cons, List.length_append, List.length_nil] at this
              omega
            last := by rw [h.tail]; exact h.next }
        loc := fun t => by rw [h.loc t]; trivial
        mutex := fun t => by rw [h.loc t, h.mutex]; simp [holds]
        away := fun t c hc => by rw [h.loc t] at hc; cases hc
        one := fun t u c hc _ => by rw [h.loc t] at hc; cases hc
        dummy := .inl (List.mem_singleton.mpr rfl)
        busyIn := fun e he => by simp at he
        busyWork := fun t e hc => by rw [h.loc t] at hc; cases hc
        books := by simp [h.log, returned, exchanged, St.taken, h.mutex, users]
        nulls := fun l₁ l₂ heq => by simp [h.log] at heq }
  · rw [h.hist, hpend]
    exact .init

omit [DecidableEq τ] in
theorem InvOf.withHist {s : St τ E} {q : List (Cell E)} (h : InvOf s q)
    (ev : List (Ev τ (QueueOp (Cell E)) (Res (Cell E)))) : InvOf { s with hist := ev } q where
  chain := h.chain.congr rfl rfl (fun _ _ => rfl) fun t _ _ ht => ⟨t, ht⟩
  loc t := (h.loc t).congr rfl rfl
  mutex := h.mutex
  away := h.away
  one := h.one
  dummy := h.dummy
  busyIn := h.busyIn
  busyWork := h.busyWork
  books := h.books
  nulls := h.nulls

theorem holds_of_away_dummy {l : Loc E} (h : Wf.away l = some .dummy) : holds l = true := by
  cases l with
  | clear | xchg =>
    obtain rfl := Option.some.inj h
    rfl
  | unlock => rfl
  | _ => cases h

variable [DecidableEq E]

omit [DecidableEq τ] [DecidableEq E] in
/-- When the test of `__q_pop` fails, the first cell has a successor. -/
theorem InvOf.two {s : St τ E} {q : List (Cell E)} {t : τ} (h : InvOf s q)
    (ht : holds (s.loc t) = true) (ha : Wf.away (s.loc t) = none)
    (hne : s.head ≠ some .dummy ∨ s.tail ≠ .dummy) : ∃ a b l, q = a :: b :: l := by
  have hd : Cell.dummy ∈ q := h.dummy.resolve_right fun ⟨u, hu⟩ => by
    rw [h.holder_eq ht (holds_of_away_dummy hu), ha] at hu
    cases hu
  obtain ⟨c, hc, hs⟩ := h.chain.head
  have hlast := h.chain.tail
  match q, hc with
  | a :: b :: l, _ => exact ⟨a, b, l, rfl⟩
  | [a], hc =>
    obtain rfl := Option.some.inj hc
    obtain rfl := List.mem_singleton.mp hd
    rcases hne with hne | hne
    · exact absurd hs hne
    · exact absurd (Option.some.inj hlast).symm hne

/-- One step of a thread keeps the invariant. -/
theorem inv_step {s s' : St τ E} {t : τ} (hi : Inv s) (hn : stepThread t s = some s') : Inv s' := by
  obtain ⟨q, h, S, hlin⟩ := hi
  have hlt := h.loc t
  have walk : ∀ {l : Loc E}, LocInv s q l → (∀ b a, s.loc t ≠ .link b a) →
      holds l = holds (s.loc t) → Wf.away l = Wf.away (s.loc t) → work l = work (s.loc t) →
      takes l = takes (s.loc t) → pend l = pend (s.loc t) → Inv (s.goto t l) :=
    fun hl hlink hh ha hw hk hp =>
      ⟨q, h.walk hl hlink hh ha hw hk, S, hlin.stay rfl hp⟩
  unfold stepThread at hn
  cases hl : s.loc t with
  | idle =>
    rw [hl] at hn
    cases hn
  | clear ep =>
    simp only [hl, Option.some.injEq] at hn
    subst hn
    exact ⟨q, h.clear hl, S, hlin.stay rfl (by rw [hl]; cases ep <;> rfl)⟩
  | xchg ep =>
    simp only [hl, Option.some.injEq] at hn
    subst hn
    refine ⟨q ++ [ep], h.exchange hl, ?_⟩
    have hloc : ((s.exchange ep).goto t (.link ep s.tail)).loc =
        Function.update s.loc t (.link ep s.tail) := by
      rw [exchange_eq]
      rfl
    have hhist : ((s.exchange ep).goto t (.link ep s.tail)).hist = s.hist := by
      rw [exchange_eq]
      rfl
    rw [hhist, users_append]
    cases ep with
    | dummy =>
      rw [show users [Cell.dummy (E := E)] = [] from rfl, List.append_nil]
      exact ⟨S, hlin.stay hloc (by rw [hl]; rfl)⟩
    | el e =>
      exact ⟨_, hlin.effect hloc (o := .push (.el e)) (by rw [hl]; rfl) rfl rfl⟩
  | link c a =>
    cases c with
    | dummy =>
      simp only [hl, Option.some.injEq] at hn
      subst hn
      exact ⟨q, h.link (l := .testHead) hl trivial (by simp) (by simp) (by simp) (by simp)
        (by rw [hl]; rfl) rfl rfl rfl s.hist, S, hlin.stay rfl (by rw [hl]; rfl)⟩
    | el e =>
      simp only [hl, Option.some.injEq] at hn
      subst hn
      exact ⟨q, h.link (l := .idle) hl trivial (by simp) (by simp) (by simp) (by simp)
        (by rw [hl]; rfl) rfl rfl rfl _, S,
        hlin.returned rfl (by rw [hl]; rfl) rfl⟩
  | lock =>
    simp only [hl] at hn
    cases hm : s.mutex with
    | some u =>
      rw [hm] at hn
      cases hn
    | none =>
      simp only [hm, Option.some.injEq] at hn
      subst hn
      exact ⟨q, h.lock hl hm, S, hlin.stay rfl (by rw [hl]; rfl)⟩
  | testHead =>
    simp only [hl, Option.some.injEq] at hn
    subst hn
    split
    · rename_i hd
      exact walk hd (by simp [hl]) (by rw [hl]; rfl) (by rw [hl]; rfl) (by rw [hl]; rfl)
        (by rw [hl]; rfl) (by rw [hl]; rfl)
    · rename_i hd
      exact walk (h.two (t := t) (by rw [hl]; rfl) (by rw [hl]; rfl) (.inl hd)) (by simp [hl])
        (by rw [hl]; rfl) (by rw [hl]; rfl) (by rw [hl]; rfl) (by rw [hl]; rfl) (by rw [hl]; rfl)
  | testTail =>
    simp only [hl] at hn
    split at hn
    · rename_i ht
      obtain rfl := Option.some.inj hn
      obtain ⟨hq, h'⟩ := h.null hl ht
      refine ⟨q, h', _, hlin.effect rfl (o := .pop) (r := .popped none) (by rw [hl]; rfl) ?_ rfl⟩
      rw [hq]
      rfl
    · rename_i ht
      obtain rfl := Option.some.inj hn
      exact walk (h.two (t := t) (by rw [hl]; rfl) (by rw [hl]; rfl) (.inr ht)) (by simp [hl])
        (by rw [hl]; rfl) (by rw [hl]; rfl) (by rw [hl]; rfl) (by rw [hl]; rfl) (by rw [hl]; rfl)
  | getHead =>
    rw [hl] at hlt
    obtain ⟨a, b, r, rfl⟩ := hlt
    obtain ⟨c, hc, hs⟩ := h.chain.head
    obtain rfl := Option.some.inj hc
    simp only [hl, hs, Option.some.injEq] at hn
    subst hn
    exact walk ⟨b, r, rfl⟩ (by simp [hl]) (by rw [hl]; rfl) (by rw [hl]; rfl) (by rw [hl]; rfl)
      (by rw [hl]; rfl) (by rw [hl]; rfl)
  | wait ep =>
    rw [hl] at hlt
    obtain ⟨b, r, rfl⟩ := hlt
    simp only [hl, Option.some.injEq] at hn
    subst hn
    split
    · exact walk ⟨b, r, rfl⟩ (by simp [hl]) (by rw [hl]) (by rw [hl]) (by rw [hl]) (by rw [hl])
        (by rw [hl])
    · rename_i hne
      have hb : s.next ep = some b :=
        (h.chain.link [] ep b r rfl).resolve_right fun hx => hne hx.1
      exact walk ⟨b, r, rfl, hb⟩ (by simp [hl]) (by rw [hl]; rfl) (by rw [hl]; rfl)
        (by rw [hl]; rfl) (by rw [hl]; rfl) (by rw [hl]; rfl)
  | loadNext ep =>
    rw [hl] at hlt
    obtain ⟨b, r, rfl, hb⟩ := hlt
    simp only [hl, Option.some.injEq] at hn
    subst hn
    exact walk ⟨b, r, rfl, hb, hb⟩ (by simp [hl]) (by rw [hl]; rfl) (by rw [hl]; rfl)
      (by rw [hl]; rfl) (by rw [hl]; rfl) (by rw [hl]; rfl)
  | setHead ep nx =>
    simp only [hl, Option.some.injEq] at hn
    subst hn
    obtain ⟨b, r, rfl, rfl, h'⟩ := h.setHead hl
    refine ⟨b :: r, h', ?_⟩
    cases ep with
    | dummy => exact ⟨S, hlin.stay rfl (by rw [hl]; rfl)⟩
    | el e =>
      rw [if_neg (by simp)] at h' ⊢
      exact ⟨_, hlin.effect rfl (o := .pop) (r := .popped (some (.el e))) (by rw [hl]; rfl) rfl rfl⟩
  | unlock x =>
    simp only [hl, Option.some.injEq] at hn
    subst hn
    have hloc : (s.finish t x).loc = Function.update s.loc t .idle := by
      match x with
      | none | some .dummy | some (.el e) => rfl
    have hhist : (s.finish t x).hist = s.hist ++ [.ret t (.popped x)] := by
      match x with
      | none | some .dummy | some (.el e) => rfl
    have hbusy : ∀ e, x ≠ some (.el e) → (s.finish t x).busy e = s.busy e := by
      match x with
      | none | some .dummy => exact fun _ _ => rfl
      | some (.el a) =>
        exact fun e he => Function.update_of_ne (fun hea => he (by rw [hea])) _ _
    refine ⟨q, ?_, S, ?_⟩
    · match x, hl, hloc, hbusy with
      | none, hl, hloc, hbusy => exact h.unlock hl hloc rfl rfl rfl rfl hbusy (List.append_nil _).symm
      | some .dummy, hl, hloc, hbusy => exact h.unlock hl hloc rfl rfl rfl rfl hbusy rfl
      | some (.el e), hl, hloc, hbusy => exact h.unlock hl hloc rfl rfl rfl rfl hbusy rfl
    · rw [hhist]
      exact hlin.returned hloc (by rw [hl]; rfl) rfl

/-- Each action keeps the invariant. -/
theorem inv_next {a : Act τ E} {s s' : St τ E} (hi : Inv s) (hn : next a s = some s') : Inv s' := by
  cases a with
  | step t => exact inv_step hi hn
  | push t e =>
    obtain ⟨q, h, S, hlin⟩ := hi
    simp only [next] at hn
    split at hn
    · rename_i hl hb
      obtain rfl := Option.some.inj hn
      exact ⟨q, (h.push hl hb).withHist _, S,
        hlin.called rfl (by rw [hl]; rfl) rfl⟩
    · cases hn
  | pop t =>
    obtain ⟨q, h, S, hlin⟩ := hi
    simp only [next] at hn
    split at hn
    · rename_i hl
      obtain rfl := Option.some.inj hn
      exact ⟨q, (h.walk (l := .lock) (t := t) trivial (by simp [hl]) (by rw [hl]; rfl)
        (by rw [hl]; rfl) (by rw [hl]; rfl) (by rw [hl]; rfl)).withHist _, S,
        hlin.called rfl (by rw [hl]; rfl) rfl⟩
    · cases hn

/-- **`wfenqueue.c` is a linearizable queue**, for any number of threads and
however their pushes are interleaved with the pops. -/
theorem fifo {s : St τ E} (h : (sys τ E).Reach Sys.always s) : Fifo s := by
  refine fifo_of_inv (h.inv (fun _ => inv_init) fun a s s' hi _ hn => ?_)
  have hn' : next a s = some s' := hn
  exact inv_next hi hn'

/-! ### A run -/

def start : St (Fin 2) ℕ where
  head := some .dummy
  tail := .dummy
  next _ := none
  mutex := none
  loc _ := .idle
  busy _ := false
  log := []
  hist := []

theorem start_init : Init start :=
  ⟨rfl, rfl, rfl, rfl, fun _ => rfl, fun _ => rfl, rfl, rfl⟩

/-- `n` steps of thread `t` in a row. -/
def steps (n : ℕ) (t : Fin 2) : List (Act (Fin 2) ℕ) := List.replicate n (.step t)

/-- Thread 0 stops before it links 7; thread 1 pops, waits for the link, and
gets 7 after re-enqueueing the dummy. -/
def popHalfPushed : List (Act (Fin 2) ℕ) :=
  [.push 0 7] ++ steps 2 0 ++ [.pop 1] ++ steps 5 1 ++ steps 1 0 ++ steps 12 1

theorem fifo_run : ∃ s, (sys (Fin 2) ℕ).Reach Sys.always s ∧ returned s.log = [.el 7] ∧ Fifo s := by
  have hrun : ((sys (Fin 2) ℕ).run Sys.always popHalfPushed start).map (fun s => returned s.log) =
      some [.el 7] := by
    decide
  obtain ⟨s, hs, hd⟩ := Option.map_eq_some_iff.mp hrun
  have hr := Sys.run_reach (.init start_init) hs
  exact ⟨s, hr, hd, fifo hr⟩

end Wf
end Queue
end Perfbook
