/-
# Runs of a `procon.h` pool

With zeroed memory a block that its user has not touched has nothing in its link (`Clean`),
as `procon_alloc` clears it, and so every buffer ends. The pools of `existence.h` and
`keyvalue.h` are filled by `malloc`, and then the block that fills a buffer may be one that
`pm_alloc` has returned: what its memory had is the end of the pool (`pool_not_well_formed`).

Key definitions: `Clean`.
Key theorems: `Inv.next`, `Clean.next`, `blocks_one_owner`, `pool_well_formed`, `pool_not_well_formed`.
-/
import Perfbook.Alloc.ProconInv

namespace Perfbook
namespace Procon

open Conc

variable {s s' : St} {a : Act} {b c : ℕ} {pub buf un : List ℕ}

/-- **Every step keeps the invariant**, if the block that fills the buffer ends it. -/
theorem Inv.next (hi : Inv s) (hok : FillsWithNull a s) (hn : next s a = some s') : Inv s' := by
  obtain ⟨pub, buf, un, hi⟩ := hi
  cases a with
  | alloc =>
    rw [Procon.next] at hn
    split at hn
    · next hidle =>
      cases hn
      exact ⟨_, _, _, hi.call hidle⟩
    · cases hn
  | stepAlloc => exact hi.stepAlloc hn
  | pmAlloc b => exact ⟨_, _, _, hi.pmAlloc hn⟩
  | unalloc b => exact ⟨_, _, _, hi.unalloc hn⟩
  | free b => exact ⟨_, _, _, hi.put hn hok⟩
  | stepFree =>
    cases hf : s.free with
    | idle =>
      rw [Procon.next, stepFree, hf] at hn
      cases hn
    | exchange => exact ⟨_, _, _, hi.exchange hf hn⟩
    | link old => exact ⟨_, _, _, hi.publish hf hn⟩

theorem inv_init (h : Init s) : Inv s := by
  refine ⟨[], [], [], ?_⟩
  have htaken : s.alloc.taken = [] := by
    rw [h.alloc]
    rfl
  refine ⟨by rw [htaken]; exact List.nodup_nil, fun b => ?_, fun b hb => ?_, ?_, trivial, ?_, h.pbCount.symm, ?_, ?_,
    nofun, ?_, ?_⟩
  · rw [htaken, h.known b]
    exact iff_of_false nofun nofun
  · rw [h.allocated b] at hb
    cases hb
  · exact Option.map_eq_none_iff.mpr h.pmHead
  · exact Option.map_eq_none_iff.mpr h.pmUnalloc
  · rw [h.pbCount]
    exact Nat.zero_le _
  · rw [h.pbTail]
    rfl
  · rw [h.free]
    exact ⟨by decide, h.pmTail⟩
  · rw [h.alloc]
    trivial

/-! ### Zeroed memory -/

/-- A block that is new, or that a user has, has nothing in its link. -/
structure Clean (s : St) : Prop where
  new : ∀ b, s.known b = false → s.mem (.next b) = none
  used : ∀ b, s.allocated b = true → s.mem (.next b) = none

/-- A link that is stored to is one of a block that is in a chain. -/
theorem Clean.keep (hc : Clean s)
    (hmem : ∀ b, s'.mem (.next b) = s.mem (.next b) ∨ s'.known b = true ∧ s'.allocated b = false)
    (hknown : ∀ b, s'.known b = false → s.known b = false) (hall : ∀ b, s'.allocated b = true → s.allocated b = true) :
    Clean s' where
  new b hb := by
    rcases hmem b with h | ⟨h, -⟩
    · exact h.trans (hc.new b (hknown b hb))
    · rw [hb] at h
      cases h
  used b hb := by
    rcases hmem b with h | ⟨-, h⟩
    · exact h.trans (hc.used b (hall b hb))
    · rw [hb] at h
      cases h

/-- Nothing is stored to the link of a block. -/
theorem Clean.same (hc : Clean s) (hmem : ∀ b, s'.mem (.next b) = s.mem (.next b)) (hknown : s'.known = s.known)
    (hall : s'.allocated = s.allocated) : Clean s' :=
  hc.keep (fun b => .inl (hmem b)) (fun b hb => by rwa [hknown] at hb) fun b hb => by rwa [hall] at hb

theorem Clean.stepAlloc (hc : Clean s) (hn : stepAlloc s = some s') : Clean s' := by
  rw [Procon.stepAlloc] at hn
  split at hn
  · cases hn
    exact hc.same (fun _ => rfl) rfl rfl
  · split at hn
    · cases hn
      exact hc.same (fun _ => rfl) rfl rfl
    · cases hn
      exact hc.same (fun _ => rfl) rfl rfl
    · cases hn
  · cases hn
    exact hc.same (fun _ => rfl) rfl rfl
  · next b _ =>
    cases hn
    have hself : setLink s (.next b) none (.next b) = none := Function.update_self ..
    have hne : ∀ c, c ≠ b → setLink s (.next b) none (.next c) = s.mem (.next c) := fun c hcb =>
      Function.update_of_ne (fun h => hcb (Link.next.inj h)) ..
    refine ⟨fun c hk => ?_, fun c hu => ?_⟩
    · by_cases hcb : c = b
      · exact hcb ▸ hself
      · exact (hne c hcb).trans (hc.new c hk)
    · by_cases hcb : c = b
      · exact hcb ▸ hself
      · exact (hne c hcb).trans (hc.used c ((Function.update_of_ne hcb ..).symm.trans hu))
  · cases hn

theorem Clean.pmAlloc {x : Option ℕ} (hc : Clean s) (hn : next s (.pmAlloc x) = some s') : Clean s' := by
  unfold Procon.next at hn
  dsimp only at hn
  split at hn
  · cases hn
    exact hc.same (fun _ => rfl) rfl rfl
  · next b ha =>
    split at hn
    · cases hn
    · next hk =>
      cases hn
      refine ⟨fun c hkc => hc.new c ?_, fun c hu => ?_⟩
      · by_cases hcb : c = b
        · exact hcb ▸ Bool.eq_false_iff.mpr hk
        · exact (Function.update_of_ne hcb ..).symm.trans hkc
      · by_cases hcb : c = b
        · exact hcb ▸ hc.new b (Bool.eq_false_iff.mpr hk)
        · exact hc.used c ((Function.update_of_ne hcb ..).symm.trans hu)
  · cases hn

/-- The link at the end of a chain is one of a block that no user has. -/
theorem before_root {p : Link} {l : List ℕ} (hp : ∀ b, p ≠ .next b) (hb : before p (cells l) = .next b) : b ∈ l := by
  rcases before_cells p l with h | ⟨c, hc, h⟩
  · exact absurd (h.symm.trans hb) (hp b)
  · exact Link.next.inj (h.symm.trans hb) ▸ hc

theorem update_allocated {f : ℕ → Bool} (h : Function.update f b false c = true) : f c = true := by
  by_cases hcb : c = b
  · rw [hcb, Function.update_self] at h
    cases h
  · rwa [Function.update_of_ne hcb] at h

theorem update_in_chain {f : ℕ → Bool} (h : f c = false) : Function.update f b false c = false := by
  by_cases hcb : c = b
  · rw [hcb, Function.update_self]
  · rwa [Function.update_of_ne hcb]

/-- **Zeroed memory stays clean.** -/
theorem Clean.next (hc : Clean s) (hi : Inv s) (hn : next s a = some s') : Clean s' := by
  obtain ⟨pub, buf, un, hi⟩ := hi
  cases a with
  | alloc =>
    rw [Procon.next] at hn
    split at hn
    · cases hn
      exact hc.same (fun _ => rfl) rfl rfl
    · cases hn
  | stepAlloc => exact hc.stepAlloc hn
  | pmAlloc b => exact hc.pmAlloc hn
  | unalloc b =>
    rw [Procon.next] at hn
    split at hn
    · next hg =>
      cases hn
      refine hc.keep (fun c => ?_) (fun _ => id) fun c => update_allocated
      have hne : Link.next c ≠ .pmUnalloc := fun h => by cases h
      by_cases hcb : c = b
      · exact .inr ⟨hcb ▸ hi.known b hg.2, hcb ▸ Function.update_self ..⟩
      · exact .inl ((Function.update_of_ne hne (some b) (setLink s (.next b) _)).trans
          (Function.update_of_ne (fun h => hcb (Link.next.inj h)) ..))
    · cases hn
  | free b =>
    rw [Procon.next] at hn
    split at hn
    · cases hn
      refine hc.keep (fun c => ?_) (fun _ => id) fun c => update_allocated
      by_cases hold : Link.next c = s.pbTail.getD .pbHead
      · have hm : c ∈ buf := before_root (p := .pbHead) (fun _ h => by cases h) (hi.pbTail.symm.trans hold.symm)
        obtain ⟨hk, hu⟩ :=
          (hi.places c).mp (List.mem_append_left _ (List.mem_append_left _ (List.mem_append_right _ hm)))
        exact .inr ⟨hk, update_in_chain hu⟩
      · exact .inl (Function.update_of_ne hold ..)
    · cases hn
  | stepFree =>
    cases hf : s.free with
    | idle =>
      rw [Procon.next, stepFree, hf] at hn
      cases hn
    | exchange =>
      have hinv := hi.free
      rw [hf] at hinv
      obtain ⟨tail, ht⟩ := Option.isSome_iff_exists.mp hinv.1
      rw [Procon.next, stepFree, hf, ht] at hn
      cases hn
      exact hc.same (fun _ => rfl) rfl rfl
    | link old =>
      have hinv := hi.free
      rw [hf] at hinv
      rw [Procon.next, stepFree, hf] at hn
      dsimp only at hn
      cases hn
      refine hc.keep (fun c => ?_) (fun _ => id) fun _ => id
      have hne : Link.next c ≠ .pbHead := fun h => by cases h
      by_cases hold : Link.next c = old
      · have hm : c ∈ pub := before_root (p := .pmHead) (fun _ h => by cases h) (hinv.2.2.1.symm.trans hold.symm)
        exact .inr ((hi.places c).mp (List.mem_append_left _ (List.mem_append_left _ (List.mem_append_left _ hm))))
      · exact .inl ((Function.update_of_ne hne none (setLink s old _)).trans (Function.update_of_ne hold ..))

theorem Clean.fills (hc : Clean s) (hn : Procon.next s a = some s') : FillsWithNull a s := by
  cases a with
  | free b =>
    rw [Procon.next] at hn
    split at hn
    · next hg => exact .inr (hc.used b hg.2)
    · cases hn
  | alloc | stepAlloc | pmAlloc b | unalloc b | stepFree => trivial

/-- **With zeroed memory each block has one owner.** -/
theorem blocks_one_owner (h : (sys Zeroed).Reach Sys.always s) : OneOwner s := by
  have hinv : Inv s ∧ Clean s := by
    refine h.inv (I := fun s => Inv s ∧ Clean s) (fun s hs => ?_) fun a s s' hi _ hn => ?_
    · obtain ⟨hinit, hzero⟩ := hs
      refine ⟨inv_init hinit, hzero, fun b hb => ?_⟩
      rw [hinit.allocated b] at hb
      cases hb
    · exact ⟨hi.1.next (hi.2.fills hn) hn, hi.2.next hi.1 hn⟩
  obtain ⟨⟨_, _, _, hi⟩, -⟩ := hinv
  exact hi.oneOwner

def empty (mem : ℕ → Option ℕ) : St where
  mem l := match l with
    | .next b => mem b
    | _ => none
  pmTail := .pmHead
  pbTail := none
  pbCount := 0
  alloc := .idle
  free := .idle
  known _ := false
  allocated _ := false
  freed _ := false

theorem init_empty (mem : ℕ → Option ℕ) : Init (empty mem) :=
  ⟨rfl, rfl, rfl, rfl, rfl, rfl, rfl, rfl, fun _ => rfl, fun _ => rfl, fun _ => rfl⟩

/-- `n` blocks are allocated. -/
def allocs (n : ℕ) : List Act := (List.range n).flatMap fun b => [.alloc, .stepAlloc, .pmAlloc (some b)]

/-- They are freed, and the buffer is linked behind the pool while a block is being allocated from it. -/
def publishes : List Act :=
  allocs PROCON_MAX_BUF ++ (List.range PROCON_MAX_BUF).map .free ++
    [.stepFree, .stepFree, .alloc, .stepAlloc, .stepAlloc, .stepAlloc, .stepAlloc]

theorem blocks_one_owner_run : ∃ s, (sys Zeroed).Reach Sys.always s ∧ s.mem .pmHead = some 1 ∧ s.pmTail = .next 127 ∧
    s.allocated 0 = true ∧ OneOwner s := by
  have hrun : ((sys Zeroed).run Sys.always publishes (empty fun _ => none)).map
      (fun s => (s.mem .pmHead, s.pmTail, s.allocated 0)) = some (some 1, .next 127, true) := by decide +kernel
  obtain ⟨s, hs, hd⟩ := Option.map_eq_some_iff.mp hrun
  obtain ⟨h1, hd⟩ := Prod.mk.inj hd
  obtain ⟨h2, h3⟩ := Prod.mk.inj hd
  have hinit : Init (empty fun _ => none) ∧ Zeroed (empty fun _ => none) := ⟨init_empty _, fun _ _ => rfl⟩
  have hreach := Sys.run_reach (.init hinit) hs
  exact ⟨s, hreach, h1, h2, h3, blocks_one_owner hreach⟩

/-! ### Any memory -/

/-- **The pool is well formed** in the runs in which every block that fills the buffer has nothing in its link. -/
theorem pool_well_formed (h : (sys fun _ => True).Reach FillsWithNull s) : WellFormed s := by
  have hinv : Inv s := h.inv (fun _ (hs : Init _ ∧ True) => inv_init hs.1) fun _ _ _ hi hok hn =>
    hi.next hok hn
  obtain ⟨pub, _, _, hi⟩ := hinv
  have hmem : ∀ b ∈ pub, s.allocated b = false := fun b hb =>
    ((hi.places b).mp (List.mem_append_left _ (List.mem_append_left _ (List.mem_append_left _ hb)))).2
  refine ⟨fun hidle => ⟨pub, hi.pmHead, ?_, fun b hb => ⟨hi.freed b (List.mem_append_left _ hb), hmem b hb⟩⟩,
    fun b hb => ?_⟩
  · have hf := hi.free
    rw [hidle] at hf
    exact hf.2
  · refine (hi.places b).mp (List.mem_append_right _ ?_)
    rw [hb]
    exact List.mem_cons_self

instance (a : Act) (s : St) : Decidable (OneCall a s) := by
  cases a <;> exact inferInstanceAs (Decidable (_ = _))

instance (a : Act) (s : St) : Decidable (FillsWithNull a s) := by
  cases a <;> first | exact inferInstanceAs (Decidable (_ ∨ _)) | exact .isTrue trivial

/-- The memory of block 127 is not zeroed: its link has block 200. -/
def garbage (b : ℕ) : Option ℕ := if b = 127 then some 200 else none

theorem pool_well_formed_run : ∃ s, (sys fun _ => True).Reach FillsWithNull s ∧ s.mem .pmHead = some 0 ∧
    WellFormed s := by
  -- block 127 is freed before the last one
  have hrun : ((sys fun _ => True).run FillsWithNull (allocs PROCON_MAX_BUF ++ .free 127 ::
      (List.range (PROCON_MAX_BUF - 1)).map .free ++ [.stepFree, .stepFree, .alloc, .stepAlloc, .stepAlloc, .stepAlloc,
      .stepAlloc]) (empty garbage)).map (fun s => s.mem .pmHead) = some (some 0) := by decide +kernel
  obtain ⟨s, hs, hd⟩ := Option.map_eq_some_iff.mp hrun
  have hinit : Init (empty garbage) ∧ True := ⟨init_empty _, trivial⟩
  have hreach := Sys.run_reach (S := sys fun _ => True) (.init hinit) hs
  exact ⟨s, hreach, hd, pool_well_formed hreach⟩

/-- **The pool ends at a block that nobody has freed**: block 127, which is new, fills the buffer. -/
theorem pool_not_well_formed : ¬ ∀ s, (sys fun _ => True).Reach OneCall s → WellFormed s := by
  intro hall
  have hrun : ((sys fun _ => True).run OneCall (allocs PROCON_MAX_BUF ++ (List.range PROCON_MAX_BUF).map .free ++
      [.stepFree, .stepFree]) (empty garbage)).map (fun s => (s.free, s.pmTail, s.mem (.next 127))) =
      some (.idle, .next 127, some 200) := by decide +kernel
  obtain ⟨s, hs, hd⟩ := Option.map_eq_some_iff.mp hrun
  obtain ⟨hfree, hd⟩ := Prod.mk.inj hd
  obtain ⟨htail, hlink⟩ := Prod.mk.inj hd
  have hinit : Init (empty garbage) ∧ True := ⟨init_empty _, trivial⟩
  have hreach := Sys.run_reach (S := sys fun _ => True) (.init hinit) hs
  obtain ⟨pub, hpub, hlast, -⟩ := (hall s hreach).pool hfree
  have hend := (Linked.iff_through.mp hpub).2
  rw [← hlast, htail, St.link, hlink] at hend
  cases hend

end Procon
end Perfbook
