/-
# Operations that only look

An operation that leaves the value as it is may take effect at any instant of its call, and
which one it was need not be known before it returns. So it is enough to keep, for each call
under way, the results that were right at some instant of it (`saw`): whatever of these the
call returns, the history is one of the atomic object (`Seen`).

Key definitions: `Looks`, `Seen`.
Key theorems: `Seen.observe`, `Seen.called`, `Seen.effect`, `Seen.returned`,
`Seen.answered`.
-/
import Perfbook.Conc.Lin
import Mathlib.Data.Finset.Basic
import Mathlib.Data.Fintype.Defs

namespace Perfbook
namespace Conc

variable {τ D O R : Type*}

/-- The operation leaves the value as it is. -/
def Looks (obj : Obj D O R) (o : O) : Prop := ∀ d, (obj.apply o d).1 = d

variable [DecidableEq τ]

/-- A call is as far as `p` says, or it has looked and will return what it `saw`. -/
def Chosen (p : Pend O R) (saw : R → Prop) (q : Pend O R) : Prop :=
  q = p ∨ ∃ r, saw r ∧ q = .done r

/-- `h` is a history of the atomic object, whichever of the results that they `saw` the calls
under way return. -/
structure Seen (obj : Obj D O R) (h : List (Ev τ O R)) (p : τ → Pend O R) (saw : τ → R → Prop)
    (d : D) : Prop where
  lin : ∀ q : τ → Pend O R, (∀ t, Chosen (p t) (saw t) (q t)) → ∃ S, Lin obj h S q d
  looks : ∀ t r, saw t r → ∃ o, p t = .called o ∧ Looks obj o

variable {obj : Obj D O R} {h : List (Ev τ O R)} {p : τ → Pend O R} {saw saw' : τ → R → Prop}
  {d d' : D} {t : τ} {o : O} {r : R}

namespace Seen

/-- Some calls look now. -/
theorem looked (hs : Seen obj h p saw d) (F : Finset τ) (q : τ → Pend O R)
    (hq : ∀ t, Chosen (p t) (saw t) (q t) ∨
      t ∈ F ∧ ∃ o, p t = .called o ∧ Looks obj o ∧ q t = .done (obj.apply o d).2) :
    ∃ S, Lin obj h S q d := by
  induction F using Finset.induction_on generalizing q with
  | empty => exact hs.lin q fun t => (hq t).resolve_right fun ht => absurd ht.1 (Finset.notMem_empty t)
  | insert a F _ ih =>
    by_cases hc : Chosen (p a) (saw a) (q a)
    · refine ih q fun t => ?_
      by_cases hta : t = a
      · exact .inl (hta ▸ hc)
      · exact (hq t).imp_right fun ht => ⟨(Finset.mem_insert.mp ht.1).resolve_left hta, ht.2⟩
    · obtain ⟨-, o, hp, hlook, hqa⟩ := (hq a).resolve_left hc
      -- without the look of `a`, and then with it
      obtain ⟨S, hl⟩ := ih (Function.update q a (p a)) fun t => by
        by_cases hta : t = a
        · rw [hta, Function.update_self]
          exact .inl (.inl rfl)
        · rw [Function.update_of_ne hta]
          exact (hq t).imp_right fun ht => ⟨(Finset.mem_insert.mp ht.1).resolve_left hta, ht.2⟩
      have hl := hl.commit a o (by rw [Function.update_self, hp])
      rw [hlook, Function.update_idem, ← hqa, Function.update_eq_self] at hl
      exact ⟨_, hl⟩

/-- **The calls that look see the value as it is now**, and keep what they saw. -/
theorem observe [Fintype τ] (hs : Seen obj h p saw d) (hsaw : ∀ t r, saw' t r →
      saw t r ∨ ∃ o, p t = .called o ∧ Looks obj o ∧ r = (obj.apply o d).2) :
    Seen obj h p saw' d where
  lin q hq := by
    refine hs.looked Finset.univ q fun t => ?_
    rcases hq t with hq | ⟨r, hr, hq⟩
    · exact .inl (.inl hq)
    · rcases hsaw t r hr with hr | ⟨o, ho, hl, rfl⟩
      · exact .inl (.inr ⟨r, hr, hq⟩)
      · exact .inr ⟨Finset.mem_univ t, o, ho, hl, hq⟩
  looks t r hr := by
    rcases hsaw t r hr with hr | ⟨o, ho, hl, -⟩
    · exact hs.looks t r hr
    · exact ⟨o, ho, hl⟩

/-! ### One step of an implementation

`f` tells how far the call of a thread is from where the thread is. A thread that begins or ends
has seen nothing, the others what they had. -/

omit [DecidableEq τ] in
/-- What the threads other than `t` saw. -/
def others (saw : τ → R → Prop) (t u : τ) (r : R) : Prop := u ≠ t ∧ saw u r

variable {L : Type*} {f : L → Pend O R} {loc loc' : τ → L} {l : L}

theorem start (obj : Obj D O R) : Seen obj [] (fun _ : τ => .idle) (fun _ _ => False) obj.init where
  lin q hq := by
    have hq : q = fun _ => .idle := funext fun t => (hq t).resolve_right fun ⟨_, hr, _⟩ => hr
    exact ⟨[], hq ▸ .init⟩
  looks _ _ := False.elim

variable (hs : Seen obj h (fun u => f (loc u)) saw d) (hloc : loc' = Function.update loc t l)

include hs hloc

theorem stay (hp : f l = f (loc t)) : Seen obj h (fun u => f (loc' u)) saw d := by
  rw [pend_update hloc, hp]
  exact (Function.update_eq_self t fun u => f (loc u)).symm ▸ hs

/-- The thread `t` has gone on, and the history with it. -/
theorem move {h' : List (Ev τ O R)} (ht : ∀ r, ¬ saw' t r) (hu : ∀ u, u ≠ t → ∀ r, saw' u r → saw u r)
    {q₀ : Pend O R} (hq₀ : Chosen (f (loc t)) (saw t) q₀)
    (hlin : ∀ S q, Lin obj h S q d → q t = q₀ → ∃ S, Lin obj h' S (Function.update q t (f l)) d') :
    Seen obj h' (fun u => f (loc' u)) saw' d' := by
  rw [pend_update hloc]
  refine ⟨fun q hq => ?_, fun u r hr => ?_⟩
  · -- what `t` does now is what it has to do in `h'`
    have hqt : q t = f l := by
      rcases hq t with hq | ⟨r, hr, -⟩
      · rw [hq, Function.update_self]
      · exact absurd hr (ht r)
    obtain ⟨S, hl⟩ := hs.lin (Function.update q t q₀) fun u => by
      by_cases hut : u = t
      · rw [hut, Function.update_self]
        exact hq₀
      · rw [Function.update_of_ne hut]
        have hqu := hq u
        rw [Function.update_of_ne hut] at hqu
        exact hqu.imp_right fun ⟨r, hr, hq⟩ => ⟨r, hu u hut r hr, hq⟩
    have := hlin S _ hl (Function.update_self ..)
    rwa [Function.update_idem, ← hqt, Function.update_eq_self] at this
  · have hut : u ≠ t := fun hut => ht r (hut ▸ hr)
    rw [Function.update_of_ne hut]
    exact hs.looks u r (hu u hut r hr)

theorem called (hsaw : ∀ u r, saw' u r → u ≠ t ∧ saw u r) (hp : f (loc t) = .idle) (ht : f l = .called o) :
    Seen obj (h ++ [.call t o]) (fun u => f (loc' u)) saw' d :=
  hs.move hloc (fun r hr => (hsaw t r hr).1 rfl) (fun u _ r hr => (hsaw u r hr).2) (.inl rfl)
    fun S _ hl hq => ⟨S, ht ▸ hl.call t o (hq.trans hp)⟩

theorem effect (hsaw : ∀ u r, saw' u r → u ≠ t ∧ saw u r) (hp : f (loc t) = .called o)
    (ha : obj.apply o d = (d', r)) (ht : f l = .done r) : Seen obj h (fun u => f (loc' u)) saw' d' :=
  hs.move hloc (fun r hr => (hsaw t r hr).1 rfl) (fun u _ r hr => (hsaw u r hr).2) (.inl rfl)
    fun S _ hl hq => by
      have := hl.commit t o (hq.trans hp)
      rw [ha] at this
      exact ⟨_, ht ▸ this⟩

theorem returned (hsaw : ∀ u r, saw' u r → u ≠ t ∧ saw u r) (hp : f (loc t) = .done r) (ht : f l = .idle) :
    Seen obj (h ++ [.ret t r]) (fun u => f (loc' u)) saw' d :=
  hs.move hloc (fun r hr => (hsaw t r hr).1 rfl) (fun u _ r hr => (hsaw u r hr).2) (.inl rfl)
    fun S _ hl hq => ⟨S, ht ▸ hl.ret t r (hq.trans hp)⟩

/-- **A call that looks returns what it saw.** -/
theorem answered (hsaw : ∀ u r, saw' u r → u ≠ t ∧ saw u r) (hr : saw t r) (ht : f l = .idle) :
    Seen obj (h ++ [.ret t r]) (fun u => f (loc' u)) saw' d :=
  hs.move hloc (fun r hr => (hsaw t r hr).1 rfl) (fun u _ r hr => (hsaw u r hr).2) (.inr ⟨r, hr, rfl⟩)
    fun S _ hl hq => ⟨S, ht ▸ hl.ret t r hq⟩

end Seen

end Conc
end Perfbook
