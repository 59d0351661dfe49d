/-
# What a table instance holds

`Has h g M`: the buckets of table `g` are lists of the elements of `M`, each
once, in the bucket of its key. Linking an element adds it and unlinking one
removes it; a table that uses the other link does not change.

Key definitions: `live`, `Has`.
Key theorems: `Has.link`, `Has.unlink`, `Has.frame_link`, `Has.frame_unlink`, `Has.elems`.
-/
import Mathlib.Data.List.Perm.Subperm
import Perfbook.Hash.Table

namespace Perfbook
namespace Hash

open Conc

variable {E K : Type}

/-- The elements of a bucket, newest first. -/
def live (h : Heap E K) (x : ℕ × ℕ) : List E := (h.hist x).filter fun e => !h.out x.1 e

/-- The elements of table `g` are those of `M`. -/
structure Has (h : Heap E K) (g : ℕ) (M : E → Prop) : Prop where
  ring : ∀ b, Ring (Cell.link · (h.tab g).idx) (.head g b) h.links (live h (g, b))
  mem : ∀ b e, e ∈ live h (g, b) ↔ b = h.bucket g (h.key e) ∧ M e

variable {h h' : Heap E K} {g g' b b' : ℕ} {M M' : E → Prop} {e : E} {i : Bool} {x : ℕ × ℕ}

theorem link_inj (i : Bool) : Function.Injective (Cell.link (E := E) · i) := fun _ _ he =>
  (Cell.link.inj he).1

theorem link_ne_head (g b : ℕ) (i : Bool) (e : E) : Cell.link e i ≠ .head g b := by simp

/-- The same lists, and the same links of their cells. -/
theorem Has.congr (hs : Has h g M) (htab : (h'.tab g).idx = (h.tab g).idx)
    (hbucket : ∀ e, h'.bucket g (h'.key e) = h.bucket g (h.key e))
    (hlive : ∀ b, live h' (g, b) = live h (g, b))
    (hhead : ∀ b, h'.links.next (.head g b) = h.links.next (.head g b) ∧
      h'.links.prev (.head g b) = h.links.prev (.head g b))
    (hlink : ∀ e, M e → h'.links.next (.link e (h.tab g).idx) = h.links.next (.link e (h.tab g).idx) ∧
      h'.links.prev (.link e (h.tab g).idx) = h.links.prev (.link e (h.tab g).idx))
    (hM : ∀ e, M' e ↔ M e) : Has h' g M' where
  ring b := by
    rw [hlive, htab]
    exact (hs.ring b).congr (hhead b) fun e he => hlink e ((hs.mem b e).mp he).2
  mem b e := by rw [hlive, hs.mem, hM, hbucket]

theorem Has.of (hs : Has h g M) (hM : ∀ e, M' e ↔ M e) : Has h g M' :=
  hs.congr rfl (fun _ => rfl) (fun _ => rfl) (fun _ => ⟨rfl, rfl⟩) (fun _ _ => ⟨rfl, rfl⟩) hM

theorem live_bucket (hs : Has h g M) (he : M e) : e ∈ live h (g, h.bucket g (h.key e)) :=
  (hs.mem _ e).mpr ⟨rfl, he⟩

variable [DecidableEq E]

section Link

variable (hlinks : h'.links = h.links.add (.link e i) (.head x.1 x.2))
  (hhist : h'.hist = Function.update h.hist x (e :: h.hist x)) (hout : h'.out = h.out)
  (htab : h'.tab = h.tab) (hkey : h'.key = h.key)

include hlinks hhist hout htab hkey

/-- **Linking an element** adds it. -/
theorem Has.link (hs : Has h x.1 M) (hi : i = (h.tab x.1).idx) (hx : x.2 = h.bucket x.1 (h.key e))
    (he : ¬ M e) (ho : h.out x.1 e = false) : Has h' x.1 (fun a => M a ∨ a = e) := by
  subst hi
  have hlive : ∀ b, live h' (x.1, b) = if b = x.2 then e :: live h x else live h (x.1, b) := by
    intro b
    by_cases hb : b = x.2
    · subst hb
      rw [if_pos rfl, live, hhist, hout]
      simp [live, ho]
    · have hne : (x.1, b) ≠ x := fun heq => hb (congrArg Prod.snd heq)
      rw [if_neg hb, live, hhist, hout, Function.update_of_ne hne]
      rfl
  have hnot : ∀ b, e ∉ live h (x.1, b) := fun b hm => he ((hs.mem b e).mp hm).2
  have hbucket : ∀ a, h'.bucket x.1 (h'.key a) = h.bucket x.1 (h.key a) := fun a => by
    rw [Heap.bucket, Heap.bucket, htab, hkey]
  constructor
  · intro b
    rw [hlive, htab, hlinks]
    by_cases hb : b = x.2
    · subst hb
      rw [if_pos rfl]
      exact (hs.ring x.2).add (link_inj _) (link_ne_head _ _ _) (hnot x.2)
    · rw [if_neg hb]
      have hhead : Cell.head (E := E) x.1 b ≠ .head x.1 x.2 := by simp [hb]
      refine (hs.ring b).congr ((hs.ring x.2).add_frame hhead (by simp) (by simp)) fun a ha => ?_
      have hae : a ≠ e := fun heq => hnot b (heq ▸ ha)
      refine (hs.ring x.2).add_frame (by simp) (by simp [hae]) fun a' ha' => ?_
      have hne : a ≠ a' := by
        rintro rfl
        exact hb (((hs.mem b a).mp ha).1.trans ((hs.mem x.2 a).mp ha').1.symm)
      simp [hne]
  · intro b a
    rw [hlive, hbucket]
    by_cases hb : b = x.2
    · subst hb
      rw [if_pos rfl, List.mem_cons, show live h x = live h (x.1, x.2) from rfl, hs.mem]
      constructor
      · rintro (rfl | ⟨hb, hm⟩)
        · exact ⟨hx, .inr rfl⟩
        · exact ⟨hb, .inl hm⟩
      · rintro ⟨hb, hm | rfl⟩
        · exact .inr ⟨hb, hm⟩
        · exact .inl rfl
    · rw [if_neg hb, hs.mem]
      refine and_congr_right fun hba => ⟨.inl, fun hm => hm.resolve_right ?_⟩
      rintro rfl
      exact hb (hba.trans hx.symm)

/-- A table that uses the other link does not change. -/
theorem Has.frame_link (hs : Has h g M) (hi : i ≠ (h.tab g).idx) (hg : x.1 ≠ g)
    (hx : Has h x.1 M') (hxi : i = (h.tab x.1).idx) : Has h' g M := by
  have hframe : ∀ c : Cell E, (∀ a j, c = .link a j → j = (h.tab g).idx) →
      (∀ b, c ≠ .head x.1 b) → h'.links.next c = h.links.next c ∧ h'.links.prev c = h.links.prev c := by
    intro c hc hh
    have hlink : ∀ a, c ≠ .link a i := fun a heq => hi (hc a i heq)
    rw [hlinks]
    subst hxi
    exact (hx.ring x.2).add_frame (hh x.2) (hlink e) fun a _ => hlink a
  refine hs.congr (by rw [htab]) (fun a => by rw [Heap.bucket, Heap.bucket, htab, hkey]) (fun b => ?_)
    (fun b => hframe _ (by simp) (by simp [hg.symm])) (fun a _ => hframe _ (by simp) (by simp))
    fun _ => Iff.rfl
  have hne : (g, b) ≠ x := fun heq => hg (congrArg Prod.fst heq).symm
  rw [live, live, hhist, hout, Function.update_of_ne hne]

end Link

section Unlink

variable (hlinks : h'.links = h.links.del (.link e i)) (hhist : h'.hist = h.hist)
  (hout : h'.out = Function.update h.out g (Function.update (h.out g) e true))
  (htab : h'.tab = h.tab) (hkey : h'.key = h.key)

include hlinks hhist hout htab hkey

/-- **Unlinking an element** removes it. -/
theorem Has.unlink (hs : Has h g M) (hi : i = (h.tab g).idx) (he : M e) :
    Has h' g (fun a => M a ∧ a ≠ e) := by
  subst hi
  have hlive : ∀ b, live h' (g, b) = (live h (g, b)).filter fun a => a ≠ e := by
    intro b
    rw [live, live, hhist, hout, Function.update_self, List.filter_filter]
    refine List.filter_congr fun a _ => ?_
    by_cases ha : a = e
    · simp [ha]
    · simp [ha]
  have hbucket : ∀ a, h'.bucket g (h'.key a) = h.bucket g (h.key a) := fun a => by
    rw [Heap.bucket, Heap.bucket, htab, hkey]
  have hmem := live_bucket hs he
  constructor
  · intro b
    rw [hlive, htab, hlinks]
    by_cases hb : b = h.bucket g (h.key e)
    · subst hb
      obtain ⟨l₁, l₂, hl⟩ := List.append_of_mem hmem
      have hr := hs.ring (h.bucket g (h.key e))
      rw [hl] at hr ⊢
      have hnd := List.nodup_append.mp hr.nodup
      have h₁ : ∀ a ∈ l₁, a ≠ e := fun a ha => hnd.2.2 a ha e List.mem_cons_self
      have h₂ : ∀ a ∈ l₂, a ≠ e := by
        rintro a ha rfl
        exact (List.nodup_cons.mp hnd.2.1).1 ha
      have hfilter : (l₁ ++ e :: l₂).filter (fun a => a ≠ e) = l₁ ++ l₂ := by
        rw [List.filter_append, List.filter_cons_of_neg (by simp),
          List.filter_eq_self.mpr (by simpa using h₁), List.filter_eq_self.mpr (by simpa using h₂)]
      rw [hfilter]
      exact hr.del (link_inj _) (link_ne_head _ _ _)
    · have hnot : ∀ a ∈ live h (g, b), a ≠ e := by
        rintro a ha rfl
        exact hb ((hs.mem b a).mp ha).1
      rw [List.filter_eq_self.mpr (by simpa using hnot)]
      have hhead : Cell.head (E := E) g b ≠ .head g (h.bucket g (h.key e)) := by simp [hb]
      refine (hs.ring b).congr ((hs.ring _).del_frame hmem hhead (by simp)) fun a ha => ?_
      refine (hs.ring _).del_frame hmem (by simp) fun a' ha' => ?_
      have hne : a ≠ a' := by
        rintro rfl
        exact hb (((hs.mem b a).mp ha).1.trans ((hs.mem _ a).mp ha').1.symm)
      simp [hne]
  · intro b a
    rw [hlive, hbucket, List.mem_filter, hs.mem, decide_eq_true_iff, and_assoc]

/-- A table that uses the other link does not change. -/
theorem Has.frame_unlink (hs : Has h g' M) (hi : i ≠ (h.tab g').idx) (hg : g ≠ g')
    (hx : Has h g M') (hxi : i = (h.tab g).idx) (he : M' e) : Has h' g' M := by
  have hframe : ∀ c : Cell E, (∀ a j, c = .link a j → j = (h.tab g').idx) →
      (∀ b, c ≠ .head g b) → h'.links.next c = h.links.next c ∧ h'.links.prev c = h.links.prev c := by
    intro c hc hh
    have hlink : ∀ a, c ≠ .link a i := fun a heq => hi (hc a i heq)
    rw [hlinks]
    subst hxi
    exact (hx.ring _).del_frame (live_bucket hx he) (hh _) fun a _ => hlink a
  refine hs.congr (by rw [htab]) (fun a => by rw [Heap.bucket, Heap.bucket, htab, hkey]) (fun b => ?_)
    (fun b => hframe _ (by simp) (by simp [hg.symm])) (fun a _ => hframe _ (by simp) (by simp))
    fun _ => Iff.rfl
  rw [live, live, hhist, hout, Function.update_of_ne hg.symm]

end Unlink

/-! ### The lists that a reader sees -/

omit [DecidableEq E]

theorem walkFrom_first {next : Cell E → Cell E} {l : List E} (hl : ∀ l₁ e l₂, l = l₁ ++ e :: l₂ →
    next (.link e i) = first (Cell.link · i) (.head g b) l₂) :
    ∀ {m : ℕ}, l.length ≤ m → walkFrom next m (first (Cell.link · i) (.head g b) l) = l := by
  induction l with
  | nil =>
    intro m _
    cases m <;> rfl
  | cons e l ih =>
    intro m hm
    cases m with
    | zero => simp at hm
    | succ m =>
      show e :: walkFrom next m (next (.link e i)) = e :: l
      rw [hl [] e l rfl]
      refine congrArg _ (ih (fun l₁ a l₂ he => ?_) (Nat.le_of_succ_le_succ hm))
      exact hl (e :: l₁) a l₂ (by rw [he]; rfl)

/-- The elements that are linked into a bucket. -/
theorem Has.elems (hs : Has h g M) (hpool : ∀ e, M e → e ∈ h.pool) (b : ℕ) :
    h.elems (g, b) = live h (g, b) := by
  have hr := hs.ring b
  rw [Heap.elems, hr.next_head]
  refine walkFrom_first (fun l₁ e l₂ he => ?_) ?_
  · have hr' := he ▸ hr
    exact hr'.next_mem
  · exact (hr.nodup.subperm fun e he => hpool e ((hs.mem b e).mp he).2).length_le

end Hash
end Perfbook
