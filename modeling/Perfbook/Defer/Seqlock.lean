/-
# `defer/seqlock.h`: sequence locks

A writer holds the spinlock, and makes `seq` odd before it changes the protected
variables and even again afterwards. A reader takes `seq` without its low bit, reads,
and tries again when `seq` is not that number any more. Each access to `seq`, to the
lock and to a protected variable is a step. `seq` is a number: it does not wrap.

A write section is what is between the two stores to `seq`. `states` is history: what
the variables held at the start, and after each write section. So are `wrote`,
whether a protected variable was written since a reader has begun, and `met`,
whether it began while a write section was in progress.

While `seq` is the number that a reader has taken, it is even, and no write section
was in progress since the reader has begun.

Key definitions: `Loc`, `St`, `stepThread`, `next`, `sys`, `Inv`, `RetryZero`.
Key theorems: `Inv.of_eq`, `inv_step`, `reads_consistent`.
-/
import Perfbook.Conc.Lock
import Perfbook.Conc.Sys

namespace Perfbook
namespace Seqlock

open Conc

/-- Where a thread is, with the locals it still needs. -/
inductive Loc (V X : Type)
  | idle
  /-- `write_seqlock`, before `spin_lock` -/
  | lock
  /-- before `READ_ONCE(slp->seq)` -/
  | lockRead
  /-- before `WRITE_ONCE(slp->seq, s + 1)` -/
  | lockStore (s : ℕ)
  /-- between `write_seqlock` and `write_sequnlock` -/
  | writing
  /-- `write_sequnlock`, before `READ_ONCE(slp->seq)` -/
  | unlockRead
  /-- before `WRITE_ONCE(slp->seq, s + 1)` -/
  | unlockStore (s : ℕ)
  /-- before `spin_unlock` -/
  | unlock
  /-- `read_seqbegin`, before `READ_ONCE(slp->seq)` -/
  | begin_
  /-- after it has returned `s`, with what was read since then, and what `read_seqretry` has
  returned if it was the last call -/
  | reading (s : ℕ) (vals : List (V × X)) (ret : Option Bool)
  /-- `read_seqretry(slp, s)`, before `READ_ONCE(slp->seq)` -/
  | retry (s : ℕ) (vals : List (V × X))
deriving DecidableEq

variable {n : ℕ} {V X : Type}

/-- The places where the lock is held. -/
def Loc.locks : Loc V X → Bool
  | .lockRead | .lockStore _ | .writing | .unlockRead | .unlockStore _ | .unlock => true
  | _ => false

/-- A write section is in progress. -/
def Loc.inSection : Loc V X → Bool
  | .writing | .unlockRead | .unlockStore _ => true
  | _ => false

structure St (n : ℕ) (V X : Type) where
  seq : ℕ
  lock : Option (Fin n)
  mem : V → X
  loc : Fin n → Loc V X
  states : List (V → X)
  wrote : Fin n → Bool
  met : Fin n → Bool

/-- The calls, and the accesses to the protected variables. -/
inductive Act (n : ℕ) (V X : Type)
  | writeSeqlock (t : Fin n)
  | write (t : Fin n) (v : V) (x : X)
  | writeSequnlock (t : Fin n)
  | readSeqbegin (t : Fin n)
  | read (t : Fin n) (v : V)
  | readSeqretry (t : Fin n)
  | leave (t : Fin n)
  | step (t : Fin n)

section

variable [DecidableEq V] (s : St n V X)

/-- The thread goes to another place. -/
def St.goto (t : Fin n) (l : Loc V X) : St n V X := { s with loc := Function.update s.loc t l }

/-- The next step of thread `t` in a function of `seqlock.h`. -/
def stepThread (t : Fin n) : Option (St n V X) :=
  match s.loc t with
  | .lock => if s.lock = none then some ({ s with lock := some t }.goto t .lockRead) else none
  | .lockRead => some (s.goto t (.lockStore s.seq))
  | .lockStore q => some ({ s with seq := q + 1 }.goto t .writing)
  | .unlockRead => some (s.goto t (.unlockStore s.seq))
  | .unlockStore q => some ({ s with seq := q + 1, states := s.mem :: s.states }.goto t .unlock)
  | .unlock => some ({ s with lock := none }.goto t .idle)
  | .begin_ =>
    some ({ s with
      wrote := Function.update s.wrote t false
      met := Function.update s.met t (decide (∃ u, (s.loc u).inSection = true)) }.goto t
        -- `s & ~0x1UL`
        (.reading (s.seq - s.seq % 2) [] none))
  | .retry q vals => some (s.goto t (.reading q vals (some (decide (s.seq ≠ q)))))
  | _ => none

def next : Act n V X → Option (St n V X)
  | .writeSeqlock t =>
    match s.loc t with
    | .idle => some (s.goto t .lock)
    | _ => none
  | .write t v x =>
    match s.loc t with
    | .writing => some { s with mem := Function.update s.mem v x, wrote := fun _ => true }
    | _ => none
  | .writeSequnlock t =>
    match s.loc t with
    | .writing => some (s.goto t .unlockRead)
    | _ => none
  | .readSeqbegin t =>
    match s.loc t with
    | .idle => some (s.goto t .begin_)
    | _ => none
  | .read t v =>
    match s.loc t with
    | .reading q vals _ => some (s.goto t (.reading q ((v, s.mem v) :: vals) none))
    | _ => none
  | .readSeqretry t =>
    match s.loc t with
    | .reading q vals _ => some (s.goto t (.retry q vals))
    | _ => none
  | .leave t =>
    match s.loc t with
    | .reading _ _ _ => some (s.goto t .idle)
    | _ => none
  | .step t => stepThread s t

end

/-- After `seqlock_init`. -/
structure Init (s : St n V X) : Prop where
  seq : s.seq = 0
  lock : s.lock = none
  loc : ∀ t, s.loc t = .idle
  states : s.states = [s.mem]

def sys (n : ℕ) (V X : Type) [DecidableEq V] : Sys (St n V X) (Act n V X) := ⟨Init, fun a s => next s a⟩

/-! ### What always holds -/

/-- A reader that has taken `q`: as long as `seq` is `q`, nothing has changed. -/
structure Reads (s : St n V X) (t : Fin n) (q : ℕ) (vals : List (V × X)) : Prop where
  even : q % 2 = 0
  le : q ≤ s.seq
  same : s.seq = q → s.wrote t = false ∧ s.met t = false ∧ ∀ r ∈ vals, r.2 = s.mem r.1

def LocInv (s : St n V X) (t : Fin n) : Loc V X → Prop
  | .lockRead => s.seq % 2 = 0
  | .lockStore q => s.seq = q ∧ q % 2 = 0
  | .writing | .unlockRead => s.seq % 2 = 1
  | .unlockStore q => s.seq = q ∧ q % 2 = 1
  | .reading q vals _ | .retry q vals => Reads s t q vals
  | _ => True

structure Inv (s : St n V X) : Prop where
  lock : LockedBy Loc.locks s.lock s.loc
  odd : s.seq % 2 = 1 → ∃ u, (s.loc u).inSection = true
  whole : s.seq % 2 = 0 → s.states.head? = some s.mem
  loc : ∀ t, LocInv s t (s.loc t)

variable {s s' : St n V X} {t u : Fin n} {q : ℕ} {vals : List (V × X)} {l : Loc V X}

theorem locks_of_inSection (h : l.inSection = true) : l.locks = true := by
  cases l <;> first | rfl | cases h

namespace Inv

variable (h : Inv s)
include h

/-- `seq` is odd in a write section. -/
theorem odd_of_inSection (hu : (s.loc u).inSection = true) : s.seq % 2 = 1 := by
  have hl := h.loc u
  cases hloc : s.loc u with
  | writing | unlockRead =>
    rw [hloc] at hl
    exact hl
  | unlockStore q =>
    rw [hloc] at hl
    rw [hl.1]
    exact hl.2
  | _ =>
    rw [hloc] at hu
    cases hu

/-- **What a reader knows** when it finds `seq` as it was. -/
theorem of_eq (hq : Reads s t q vals) (he : s.seq = q) : s.wrote t = false ∧ s.met t = false ∧
    (∀ u, (s.loc u).inSection = false) ∧ ∃ m ∈ s.states, ∀ r ∈ vals, r.2 = m r.1 := by
  obtain ⟨hw, hm, hv⟩ := hq.same he
  have heven : s.seq % 2 = 0 := he ▸ hq.even
  refine ⟨hw, hm, fun u => Bool.eq_false_iff.mpr fun hu => ?_, s.mem, List.mem_of_mem_head? (h.whole heven), hv⟩
  have := h.odd_of_inSection hu
  omega

end Inv

theorem Reads.keeps (h : Reads s t q vals) (hle : s.seq ≤ s'.seq)
    (hsame : s'.seq = s.seq → s'.wrote t = s.wrote t ∧ s'.met t = s.met t ∧ s'.mem = s.mem) : Reads s' t q vals where
  even := h.even
  le := h.le.trans hle
  same he := by
    have hseq : s'.seq = s.seq := Nat.le_antisymm (he ▸ h.le) hle
    obtain ⟨hw, hm, hmem⟩ := hsame hseq
    rw [hw, hm, hmem]
    exact h.same (hseq.symm.trans he)

/-- What a thread that does not move knows. -/
theorem LocInv.keeps (h : LocInv s u l) (hle : s.seq ≤ s'.seq) (hlocks : l.locks = true → s'.seq = s.seq)
    (hsame : s'.seq = s.seq → s'.wrote u = s.wrote u ∧ s'.met u = s.met u ∧ s'.mem = s.mem ∨ s.seq % 2 = 1) :
    LocInv s' u l := by
  have hreads : ∀ {q vals}, Reads s u q vals → Reads s' u q vals := fun {q vals} hr => by
    by_cases hodd : s.seq % 2 = 1
    · -- `seq` has passed what the reader has taken
      have hne : s.seq ≠ q := fun he => by
        have := hr.even
        omega
      exact ⟨hr.even, hr.le.trans hle, fun he => absurd (Nat.le_antisymm (he ▸ hle) hr.le) hne⟩
    · exact hr.keeps hle fun he => (hsame he).resolve_right hodd
  cases l with
  | lockRead | lockStore q | writing | unlockRead | unlockStore q =>
    rw [LocInv, hlocks rfl]
    exact h
  | reading q vals ret | retry q vals => exact hreads h
  | _ => trivial

/-! ### The steps -/

theorem Inv.of_step (h : Inv s) (hloc : s'.loc = Function.update s.loc t l)
    (hlock : LockedBy Loc.locks s'.lock s'.loc) (hodd : s'.seq % 2 = 1 → ∃ u, (s'.loc u).inSection = true)
    (hwhole : s'.seq % 2 = 0 → s'.states.head? = some s'.mem) (hle : s.seq ≤ s'.seq)
    (hlocks : ∀ u, u ≠ t → (s.loc u).locks = true → s'.seq = s.seq)
    (hsame : ∀ u, u ≠ t → s'.seq = s.seq →
      s'.wrote u = s.wrote u ∧ s'.met u = s.met u ∧ s'.mem = s.mem ∨ s.seq % 2 = 1)
    (hl : LocInv s' t l) : Inv s' where
  lock := hlock
  odd := hodd
  whole := hwhole
  loc := forall_update (P := LocInv s') hloc hl fun u hu => (h.loc u).keeps hle (hlocks u hu) (hsame u hu)

theorem Inv.odd_goes (h : Inv s) (hloc : s'.loc = Function.update s.loc t l)
    (hsec : (s.loc t).inSection = true → l.inSection = true) (hodd : s.seq % 2 = 1) :
    ∃ u, (s'.loc u).inSection = true := by
  obtain ⟨u, hu⟩ := h.odd hodd
  by_cases hut : u = t
  · exact ⟨t, by rw [update_self hloc]; exact hsec (hut ▸ hu)⟩
  · exact ⟨u, by rw [update_ne hloc hut]; exact hu⟩

/-- A thread goes on, and stores nothing that the others see. -/
theorem Inv.goes (h : Inv s) (hlocks : l.locks = (s.loc t).locks)
    (hsec : (s.loc t).inSection = true → l.inSection = true) (hl : LocInv s t l) : Inv (s.goto t l) :=
  h.of_step rfl (h.lock.stay rfl hlocks) (h.odd_goes rfl hsec) h.whole le_rfl (fun _ _ _ => rfl)
    (fun _ _ _ => .inl ⟨rfl, rfl, rfl⟩) (hl.keeps le_rfl (fun _ => rfl) fun _ => .inl ⟨rfl, rfl, rfl⟩)

/-- `spin_lock` and `spin_unlock`. -/
theorem Inv.locks {lock : Option (Fin n)} (h : Inv s)
    (hlock : LockedBy Loc.locks lock (Function.update s.loc t l)) (hout : (s.loc t).inSection = false)
    (hl : LocInv s t l) : Inv ({ s with lock }.goto t l) :=
  h.of_step rfl hlock (h.odd_goes rfl fun hs => absurd hs (Bool.eq_false_iff.mp hout)) h.whole le_rfl
    (fun _ _ _ => rfl) (fun _ _ _ => .inl ⟨rfl, rfl, rfl⟩)
    (hl.keeps le_rfl (fun _ => rfl) fun _ => .inl ⟨rfl, rfl, rfl⟩)

/-- The store that begins a write section. -/
theorem Inv.opens (h : Inv s) (ht : s.loc t = .lockStore q) : Inv ({ s with seq := q + 1 }.goto t .writing) := by
  obtain ⟨hq, heven⟩ : LocInv s t (.lockStore q) := ht ▸ h.loc t
  have hne : q + 1 ≠ s.seq := by omega
  refine h.of_step rfl (h.lock.stay rfl (by rw [ht]; rfl))
    (fun _ => ⟨t, by rw [St.goto]; exact congrArg Loc.inSection (Function.update_self t .writing s.loc)⟩)
    (fun he => ?_) (by rw [hq]; exact Nat.le_succ q) (fun u hu hl => ?_) (fun u _ he => absurd he hne) ?_
  · change (q + 1) % 2 = 0 at he
    omega
  · exact absurd (h.lock.eq (by rw [ht]; rfl) hl) hu
  · change (q + 1) % 2 = 1
    omega

/-- The store that ends it. -/
theorem Inv.closes (h : Inv s) (ht : s.loc t = .unlockStore q) :
    Inv ({ s with seq := q + 1, states := s.mem :: s.states }.goto t .unlock) := by
  obtain ⟨hq, hodd⟩ : LocInv s t (.unlockStore q) := ht ▸ h.loc t
  have hne : q + 1 ≠ s.seq := by omega
  refine h.of_step rfl (h.lock.stay rfl (by rw [ht]; rfl)) (fun ho => ?_) (fun _ => rfl)
    (by rw [hq]; exact Nat.le_succ q) (fun u hu hl => ?_) (fun u _ he => absurd he hne) trivial
  · change (q + 1) % 2 = 1 at ho
    omega
  · exact absurd (h.lock.eq (by rw [ht]; rfl) hl) hu

/-- A write to a protected variable. -/
theorem Inv.write [DecidableEq V] {v : V} {x : X} (h : Inv s) (ht : s.loc t = .writing) :
    Inv { s with mem := Function.update s.mem v x, wrote := fun _ => true } := by
  have hodd : s.seq % 2 = 1 := h.odd_of_inSection (by rw [ht]; rfl)
  refine ⟨h.lock, h.odd, fun he => ?_, fun u => (h.loc u).keeps le_rfl (fun _ => rfl) fun _ => .inr hodd⟩
  change s.seq % 2 = 0 at he
  omega

/-- `read_seqbegin` takes the number. -/
theorem Inv.begins (h : Inv s) (ht : s.loc t = .begin_) :
    Inv ({ s with
      wrote := Function.update s.wrote t false
      met := Function.update s.met t (decide (∃ u, (s.loc u).inSection = true)) }.goto t
        (.reading (s.seq - s.seq % 2) [] none)) := by
  refine h.of_step rfl (h.lock.stay rfl (by rw [ht]; rfl)) (h.odd_goes rfl fun hs => by rw [ht] at hs; cases hs)
    h.whole le_rfl (fun _ _ _ => rfl)
    (fun u hu _ => .inl ⟨Function.update_of_ne hu .., Function.update_of_ne hu .., rfl⟩) ⟨by omega, Nat.sub_le .., ?_⟩
  intro he
  have heven : s.seq % 2 = 0 := by
    change s.seq = s.seq - s.seq % 2 at he
    omega
  refine ⟨Function.update_self .., (Function.update_self ..).trans (decide_eq_false ?_), nofun⟩
  rintro ⟨u, hu⟩
  have := h.odd_of_inSection hu
  omega

theorem inv_step (h : Inv s) (hs : stepThread s t = some s') : Inv s' := by
  have hl := h.loc t
  cases hloc : s.loc t with
  | lock =>
    rw [stepThread, hloc] at hs
    dsimp only at hs
    split at hs
    · next hfree =>
      cases hs
      refine h.locks ((hfree ▸ h.lock).take rfl rfl) (by rw [hloc]; rfl) ?_
      refine (Nat.mod_two_eq_zero_or_one s.seq).resolve_right fun hodd => ?_
      obtain ⟨u, hu⟩ := h.odd hodd
      exact Bool.eq_false_iff.mp (h.lock.free hfree u) (locks_of_inSection hu)
    · cases hs
  | lockRead =>
    rw [stepThread, hloc] at hs
    cases hs
    rw [hloc] at hl
    exact h.goes (by rw [hloc]; rfl) (by rw [hloc]; exact id) ⟨rfl, hl⟩
  | lockStore q =>
    rw [stepThread, hloc] at hs
    cases hs
    exact h.opens hloc
  | unlockRead =>
    rw [stepThread, hloc] at hs
    cases hs
    rw [hloc] at hl
    exact h.goes (by rw [hloc]; rfl) (by rw [hloc]; exact id) ⟨rfl, hl⟩
  | unlockStore q =>
    rw [stepThread, hloc] at hs
    cases hs
    exact h.closes hloc
  | unlock =>
    rw [stepThread, hloc] at hs
    cases hs
    exact h.locks (h.lock.drop rfl (by rw [hloc]; rfl) rfl) (by rw [hloc]; rfl) trivial
  | begin_ =>
    rw [stepThread, hloc] at hs
    cases hs
    exact h.begins hloc
  | retry q vals =>
    rw [stepThread, hloc] at hs
    cases hs
    rw [hloc] at hl
    exact h.goes (by rw [hloc]; rfl) (by rw [hloc]; exact id) hl
  | _ =>
    rw [stepThread, hloc] at hs
    cases hs

variable [DecidableEq V]

theorem inv_next {a : Act n V X} (h : Inv s) (hn : next s a = some s') : Inv s' := by
  cases a with
  | step t => exact inv_step h hn
  | write t v x =>
    rw [next] at hn
    split at hn
    · next hloc =>
      cases hn
      exact h.write hloc
    · cases hn
  | read t v =>
    rw [next] at hn
    split at hn
    · next q vals ret hloc =>
      cases hn
      have hr : Reads s t q vals := (hloc ▸ h.loc t : LocInv s t (.reading q vals ret))
      refine h.goes (by rw [hloc]; rfl) (by rw [hloc]; exact id) ⟨hr.even, hr.le, fun he => ?_⟩
      obtain ⟨hw, hm, hv⟩ := hr.same he
      exact ⟨hw, hm, List.forall_mem_cons.mpr ⟨rfl, hv⟩⟩
    · cases hn
  | readSeqretry t =>
    rw [next] at hn
    split at hn
    · next q vals ret hloc =>
      cases hn
      have hr : Reads s t q vals := (hloc ▸ h.loc t : LocInv s t (.reading q vals ret))
      exact h.goes (by rw [hloc]; rfl) (by rw [hloc]; exact id) hr
    · cases hn
  | writeSequnlock t =>
    rw [next] at hn
    split at hn
    · next hloc =>
      cases hn
      have hodd : s.seq % 2 = 1 := (hloc ▸ h.loc t : LocInv s t .writing)
      exact h.goes (by rw [hloc]; rfl) (by rw [hloc]; exact id) hodd
    · cases hn
  | writeSeqlock t | readSeqbegin t | leave t =>
    rw [next] at hn
    split at hn
    · next hloc =>
      cases hn
      exact h.goes (by rw [hloc]; rfl) (by rw [hloc]; exact id) trivial
    · cases hn

omit [DecidableEq V] in
theorem inv_init (h : Init s) : Inv s where
  lock t := by
    rw [h.lock, h.loc t]
    exact iff_of_false nofun nofun
  odd hodd := by
    rw [h.seq] at hodd
    cases hodd
  whole _ := by rw [h.states, List.head?_cons]
  loc t := by
    rw [h.loc t]
    trivial

/-- A step in which `read_seqretry` returns 0 to thread `t`. -/
def RetryZero (s : St n V X) (t : Fin n) (vals : List (V × X)) (s' : St n V X) : Prop :=
  stepThread s t = some s' ∧ ∃ q, s.loc t = .retry q vals ∧ s'.loc t = .reading q vals (some false)

/-- **When `read_seqretry` returns 0**, no protected variable was written since `read_seqbegin` has
loaded `seq`, no write section was in progress then or is now, and all that was read in between
comes from one state that whole write sections have made. -/
theorem reads_consistent (h : (sys n V X).Reach Sys.always s) (hz : RetryZero s t vals s') :
    s.wrote t = false ∧ s.met t = false ∧ (∀ u, (s.loc u).inSection = false) ∧
      ∃ m ∈ s.states, ∀ r ∈ vals, r.2 = m r.1 := by
  have hinv : Inv s := h.inv (I := Inv) (fun _ => inv_init) fun _ _ _ hi _ hn => inv_next hi hn
  obtain ⟨hs, q, hloc, hret⟩ := hz
  have hr : Reads s t q vals := (hloc ▸ hinv.loc t : LocInv s t (.retry q vals))
  rw [stepThread, hloc] at hs
  obtain rfl := Option.some.inj hs
  injection (Function.update_self t _ s.loc).symm.trans hret with _ _ hret
  have he : s.seq = q := not_not.mp (of_decide_eq_false (Option.some.inj hret))
  exact hinv.of_eq hr he

omit [DecidableEq V] in
theorem exists_retryZero (ht : s.loc t = .retry s.seq vals) : ∃ s', RetryZero s t vals s' := by
  refine ⟨s.goto t (.reading s.seq vals (some false)), ?_, s.seq, ht, Function.update_self ..⟩
  rw [stepThread, ht]
  simp

/-- One variable, two threads. -/
def start : St 2 Unit ℕ where
  seq := 0
  lock := none
  mem _ := 0
  loc _ := .idle
  states := [fun _ => 0]
  wrote _ := false
  met _ := false

/-- Thread 1 writes 5, and then thread 0 reads. -/
def writeThenRead : List (Act 2 Unit ℕ) :=
  [.writeSeqlock 1, .step 1, .step 1, .step 1, .write 1 () 5, .writeSequnlock 1, .step 1, .step 1, .step 1,
    .readSeqbegin 0, .step 0, .read 0 (), .readSeqretry 0]

theorem reads_consistent_run : ∃ s s', (sys 2 Unit ℕ).Reach Sys.always s ∧ RetryZero s 0 [((), 5)] s' ∧
    s.wrote 0 = false ∧ s.met 0 = false ∧ (∀ u, (s.loc u).inSection = false) ∧
      ∃ m ∈ s.states, ∀ r ∈ [((), 5)], r.2 = m r.1 := by
  have hrun : ((sys 2 Unit ℕ).run Sys.always writeThenRead start).map (fun s => (s.seq, s.loc 0)) =
      some (2, .retry 2 [((), 5)]) := by decide
  obtain ⟨s, hs, hd⟩ := Option.map_eq_some_iff.mp hrun
  obtain ⟨hseq, hloc⟩ := Prod.mk.inj hd
  have hinit : Init start := ⟨rfl, rfl, fun _ => rfl, rfl⟩
  have hr := Sys.run_reach (.init hinit) hs
  obtain ⟨s', hz⟩ := exists_retryZero (hloc.trans (congrArg (Loc.retry · _) hseq.symm))
  exact ⟨s, s', hr, hz, reads_consistent hr hz⟩

end Seqlock
end Perfbook
