/-
# The buckets of a table as its readers see them

A reader may stand on an element that has been unlinked since, so a bucket is
the history of what was ever linked into it (`Trails`). Linking and unlinking
an element leave the way of the readers of every table that is in use
(`Later`): the tables of a resize use different links.

Key definitions: `Trails`, `Later`.
Key theorems: `Trails.congr`, `Trails.link`, `Trails.link_other`, `Trails.unlink`,
`Trails.unlink_other`.
-/
import Perfbook.Hash.Has

namespace Perfbook
namespace Hash

open Conc

variable {E K : Type}

/-- The histories of the buckets of table `g`, whose elements have their links of this table. -/
structure Trails (h : Heap E K) (g : ℕ) : Prop where
  trail : ∀ b, Trail (Cell.link · (h.tab g).idx) (.head g b) h.links (h.hist (g, b))
    fun e => !h.out g e
  bucket : ∀ b, ∀ e ∈ h.hist (g, b), b = h.bucket g (h.key e)
  home : ∀ b, ∀ e ∈ h.hist (g, b), h.home e (h.tab g).idx = g

/-- Table `g` after a step. -/
structure Later (h h' : Heap E K) (g : ℕ) : Prop where
  trails : Trails h' g
  idx : (h'.tab g).idx = (h.tab g).idx
  bucket : ∀ k, h'.bucket g k = h.bucket g k
  key : h'.key = h.key
  hist : ∀ b, ∃ l, h'.hist (g, b) = l ++ h.hist (g, b)
  gone : ∀ b, ∀ e ∈ h'.hist (g, b), h'.out g e = true →
    e ∈ h.hist (g, b) ∧ h'.links.next (.link e (h.tab g).idx) = h.links.next (.link e (h.tab g).idx)

variable {h h' : Heap E K} {g b : ℕ} {e a : E} {i : Bool} {x : ℕ × ℕ}

/-- A step that leaves the cells of the table. -/
theorem Trails.congr (hs : Trails h g) (hidx : (h'.tab g).idx = (h.tab g).idx)
    (hbucket : ∀ k, h'.bucket g k = h.bucket g k) (hkey : h'.key = h.key)
    (hhist : ∀ b, h'.hist (g, b) = h.hist (g, b)) (hout : h'.out g = h.out g)
    (hhead : ∀ b, h'.links.next (.head g b) = h.links.next (.head g b) ∧
      h'.links.prev (.head g b) = h.links.prev (.head g b))
    (hlink : ∀ b, ∀ e ∈ h.hist (g, b),
      h'.links.next (.link e (h.tab g).idx) = h.links.next (.link e (h.tab g).idx) ∧
      h'.links.prev (.link e (h.tab g).idx) = h.links.prev (.link e (h.tab g).idx))
    (hhome : ∀ e, h'.home e (h.tab g).idx = h.home e (h.tab g).idx) : Later h h' g where
  trails :=
    { trail := fun b => by
        rw [hidx, hhist, hout]
        exact (hs.trail b).congr (hhead b) (hlink b) fun _ _ => rfl
      bucket := fun b e he => by
        rw [hhist] at he
        rw [hbucket, hkey]
        exact hs.bucket b e he
      home := fun b e he => by
        rw [hhist] at he
        rw [hidx, hhome]
        exact hs.home b e he }
  idx := hidx
  bucket := hbucket
  key := hkey
  hist b := ⟨[], hhist b⟩
  gone b e he _ := by
    rw [hhist] at he
    exact ⟨he, (hlink b e he).1⟩

/-- A link that is not of this list is as before. -/
theorem Trails.live_ne (hs : Trails h g) {b' : ℕ} (hb : b ≠ b') (ha : a ∈ h.hist (g, b)) :
    ∀ a' ∈ live h (g, b'), a ≠ a' := by
  rintro a' ha' rfl
  exact hb ((hs.bucket b a ha).trans (hs.bucket b' a (List.mem_filter.mp ha').1).symm)

variable [DecidableEq E]

section Link

variable (hlinks : h'.links = h.links.add (.link e i) (.head x.1 x.2))
  (hhist : h'.hist = Function.update h.hist x (e :: h.hist x)) (hout : h'.out = h.out)
  (htab : h'.tab = h.tab) (hkey : h'.key = h.key)
  (hhome : h'.home = Function.update h.home e (Function.update (h.home e) i x.1))

include hlinks hhist hout htab hkey hhome

/-- **Linking an element** into a bucket of the table. -/
theorem Trails.link (hs : Trails h x.1) (hi : i = (h.tab x.1).idx) (hx : x.2 = h.bucket x.1 (h.key e))
    (he : ∀ b, e ∉ h.hist (x.1, b)) (ho : h.out x.1 e = false) : Later h h' x.1 := by
  subst hi
  have hbucket : ∀ k, h'.bucket x.1 k = h.bucket x.1 k := fun k => by rw [Heap.bucket, Heap.bucket, htab]
  have hself : h'.hist x = e :: h.hist x := by rw [hhist, Function.update_self]
  have hother : ∀ b, b ≠ x.2 → h'.hist (x.1, b) = h.hist (x.1, b) := fun b hb => by
    rw [hhist, Function.update_of_ne fun heq => hb (congrArg Prod.snd heq)]
  have hmem : ∀ b a, a ∈ h'.hist (x.1, b) → a ∈ h.hist (x.1, b) ∨ b = x.2 ∧ a = e := by
    intro b a ha
    by_cases hb : b = x.2
    · subst hb
      rw [show (x.1, x.2) = x from rfl, hself] at ha
      exact (List.mem_cons.mp ha).symm.imp_right fun ha => ⟨rfl, ha⟩
    · rw [hother b hb] at ha
      exact .inl ha
  have hring := (hs.trail x.2).ring
  have hframe : ∀ b a, a ∈ h.hist (x.1, b) → b ≠ x.2 →
      h'.links.next (.link a (h.tab x.1).idx) = h.links.next (.link a (h.tab x.1).idx) ∧
      h'.links.prev (.link a (h.tab x.1).idx) = h.links.prev (.link a (h.tab x.1).idx) := by
    intro b a ha hb
    have hae : a ≠ e := by
      rintro rfl
      exact he b ha
    rw [hlinks]
    exact hring.add_frame (by simp) (by simp [hae]) fun a' ha' => by
      simp [hs.live_ne hb ha a' ha']
  refine ⟨⟨fun b => ?_, fun b a ha => ?_, fun b a ha => ?_⟩, by rw [htab], hbucket, hkey, fun b => ?_,
    fun b a ha hoa => ?_⟩
  · rw [htab, hout]
    by_cases hb : b = x.2
    · subst hb
      rw [show (x.1, x.2) = x from rfl, hself, hlinks]
      exact (hs.trail x.2).add (link_inj _) (link_ne_head _ _ _) (he x.2) (by simp [ho]) fun _ _ => rfl
    · rw [hother b hb]
      refine (hs.trail b).congr ?_ (fun a ha => hframe b a ha hb) fun _ _ => rfl
      rw [hlinks]
      exact hring.add_frame (by simp [hb]) (by simp) (by simp)
  · rw [hbucket, hkey]
    obtain ha | ⟨rfl, rfl⟩ := hmem b a ha
    · exact hs.bucket b a ha
    · exact hx
  · rw [htab, hhome]
    obtain ha | ⟨-, rfl⟩ := hmem b a ha
    · have hae : a ≠ e := by
        rintro rfl
        exact he b ha
      rw [Function.update_of_ne hae]
      exact hs.home b a ha
    · rw [Function.update_self, Function.update_self]
  · by_cases hb : b = x.2
    · subst hb
      exact ⟨[e], hself⟩
    · exact ⟨[], hother b hb⟩
  · have hae : a ≠ e := by
      rintro rfl
      rw [hout, ho] at hoa
      cases hoa
    have ha := (hmem b a ha).resolve_right fun h => hae h.2
    refine ⟨ha, ?_⟩
    rw [hlinks]
    simp only [Links.add]
    rw [Function.update_of_ne (by simp), Function.update_of_ne (by simp [hae])]

/-- A table that uses the other link. -/
theorem Trails.link_other (hs : Trails h g) (hi : i ≠ (h.tab g).idx) (hg : x.1 ≠ g)
    (hx : Trails h x.1) (hxi : i = (h.tab x.1).idx) : Later h h' g := by
  have hframe : ∀ c : Cell E, (∀ a j, c = .link a j → j = (h.tab g).idx) →
      (∀ b, c ≠ .head x.1 b) → h'.links.next c = h.links.next c ∧ h'.links.prev c = h.links.prev c := by
    intro c hc hh
    have hlink : ∀ a, c ≠ .link a i := fun a heq => hi (hc a i heq)
    rw [hlinks]
    subst hxi
    exact (hx.trail x.2).ring.add_frame (hh x.2) (hlink e) fun a _ => hlink a
  refine hs.congr (by rw [htab]) (fun k => by rw [Heap.bucket, Heap.bucket, htab]) hkey (fun b => ?_)
    (by rw [hout]) (fun b => hframe _ (by simp) (by simp [hg.symm])) (fun b a _ => hframe _ (by simp) (by simp))
    fun a => ?_
  · rw [hhist, Function.update_of_ne fun heq => hg (congrArg Prod.fst heq).symm]
  · rw [hhome]
    by_cases ha : a = e
    · rw [ha, Function.update_self, Function.update_of_ne hi.symm]
    · rw [Function.update_of_ne ha]

end Link

section Unlink

variable (hlinks : h'.links = h.links.del (.link e i)) (hhist : h'.hist = h.hist)
  (hout : h'.out = Function.update h.out g (Function.update (h.out g) e true))
  (htab : h'.tab = h.tab) (hkey : h'.key = h.key) (hhome : h'.home = h.home)

include hlinks hhist hout htab hkey hhome

/-- **Unlinking an element** of the table. -/
theorem Trails.unlink (hs : Trails h g) (hi : i = (h.tab g).idx)
    (he : e ∈ live h (g, h.bucket g (h.key e))) : Later h h' g := by
  subst hi
  obtain ⟨hmem, hlive⟩ := List.mem_filter.mp he
  have hgone : h'.out g e = true := by rw [hout, Function.update_self, Function.update_self]
  have hkeep : ∀ a, a ≠ e → h'.out g a = h.out g a := fun a ha => by
    rw [hout, Function.update_self, Function.update_of_ne ha]
  have hring := (hs.trail (h.bucket g (h.key e))).ring
  have hframe : ∀ b a, a ∈ h.hist (g, b) → b ≠ h.bucket g (h.key e) →
      h'.links.next (.link a (h.tab g).idx) = h.links.next (.link a (h.tab g).idx) ∧
      h'.links.prev (.link a (h.tab g).idx) = h.links.prev (.link a (h.tab g).idx) := by
    intro b a ha hb
    rw [hlinks]
    exact hring.del_frame he (by simp) fun a' ha' => by simp [hs.live_ne hb ha a' ha']
  have hne : ∀ b a, a ∈ h.hist (g, b) → b ≠ h.bucket g (h.key e) → a ≠ e := by
    rintro b a ha hb rfl
    exact hb (hs.bucket b a ha)
  refine ⟨⟨fun b => ?_, fun b a ha => ?_, fun b a ha => ?_⟩, by rw [htab],
    fun k => by rw [Heap.bucket, Heap.bucket, htab], hkey, fun b => ⟨[], by rw [hhist]; rfl⟩,
    fun b a ha hoa => ?_⟩
  · rw [htab, hhist]
    by_cases hb : b = h.bucket g (h.key e)
    · subst hb
      rw [hlinks]
      exact (hs.trail _).del (link_inj _) (link_ne_head _ _ _) hmem hlive (by rw [hgone]; rfl)
        fun a _ ha => by rw [hkeep a ha]
    · refine (hs.trail b).congr ?_ (fun a ha => hframe b a ha hb) fun a ha => by
        rw [hkeep a (hne b a ha hb)]
      rw [hlinks]
      exact hring.del_frame he (by simp [hb]) (by simp)
  · rw [hhist] at ha
    rw [Heap.bucket, htab, hkey]
    exact hs.bucket b a ha
  · rw [hhist] at ha
    rw [htab, hhome]
    exact hs.home b a ha
  · rw [hhist] at ha
    refine ⟨ha, ?_⟩
    by_cases hb : b = h.bucket g (h.key e)
    · subst hb
      rw [hlinks]
      exact (hs.trail _).del_next (link_inj _) (link_ne_head _ _ _) (fun a => !h'.out g a) hmem hlive
        (by rw [hgone]; rfl) (fun a _ ha => by rw [hkeep a ha]) ha (by rw [hoa]; rfl)
    · exact (hframe b a ha hb).1

/-- A table that uses the other link. -/
theorem Trails.unlink_other {g' : ℕ} (hs : Trails h g') (hi : i ≠ (h.tab g').idx) (hg : g ≠ g')
    (hx : Trails h g) (hxi : i = (h.tab g).idx) (he : e ∈ live h (g, h.bucket g (h.key e))) :
    Later h h' g' := by
  have hframe : ∀ c : Cell E, (∀ a j, c = .link a j → j = (h.tab g').idx) →
      (∀ b, c ≠ .head g b) → h'.links.next c = h.links.next c ∧ h'.links.prev c = h.links.prev c := by
    intro c hc hh
    have hlink : ∀ a, c ≠ .link a i := fun a heq => hi (hc a i heq)
    rw [hlinks]
    subst hxi
    exact (hx.trail _).ring.del_frame he (hh _) fun a _ => hlink a
  refine hs.congr (by rw [htab]) (fun k => by rw [Heap.bucket, Heap.bucket, htab]) hkey
    (fun b => by rw [hhist]) ?_ (fun b => hframe _ (by simp) (by simp [hg.symm]))
    (fun b a _ => hframe _ (by simp) (by simp)) fun a => by rw [hhome]
  rw [hout, Function.update_of_ne hg.symm]

end Unlink

end Hash
end Perfbook
