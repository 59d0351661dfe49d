/-
# Several Issaquah trees in one memory

The memories that tree operations lead to, with existence pointers of any
groups at the leaves (`Reached`): the trees are well formed, and have no node in
common (`Forest`). An operation on one tree leaves the others as they are
(`Forest.upd`).

Key definitions: `Reached`, `Forest`.
Key theorems: `Forest.upd`, `Reached.forest`.
-/
import Perfbook.Issaquah.Update

namespace Perfbook
namespace Issaquah

open Bst Bst.Tree

variable {D : Type}

/-- The existence pointer is of a group that was allocated. -/
def Old (h : Heap D) (ex : Option Existence) : Prop := ∀ ep, ex = some ep → ep.group < h.freshGroup

/-- The memories and the trees in them that operations lead to: a leaf can get
the existence pointer of any group, and a group can be switched. -/
inductive Reached : Heap D → List Root → Prop
  | start (h : Heap D) : Reached h []
  | alloc {h : Heap D} {rs : List Root} (hr : Reached h rs) :
    Reached (treeAlloc h).1 ((treeAlloc h).2 :: rs)
  | insert {h h' : Heap D} {rs : List Root} {trp : Root} {okNew okInt wait : Bool} {k : Key} {d : D}
    {ex : Option Existence} {code : Code} (hr : Reached h rs) (ht : trp ∈ rs) (hex : Old h ex)
    (hrun : treeInsertExistence okNew okInt h trp k d ex wait = .ret (h', code)) : Reached h' rs
  | delete {h h' : Heap D} {rs : List Root} {trp : Root} {wait : Bool} {k : Key} {d : Option D}
    {ex : Option Existence} {code : Code} (hr : Reached h rs) (ht : trp ∈ rs)
    (hrun : treeDeleteExistence h trp k ex wait = .ret (h', code, d)) : Reached h' rs
  | attach {h : Heap D} {rs : List Root} {trp : Root} {k : Key} {par cur : Addr}
    {ex : Option Existence} (hr : Reached h rs) (ht : trp ∈ rs) (hex : Old h ex)
    (hlook : treeLookupNode h trp k = some (par, cur)) (hleaf : treeLeafNode (h.node cur) = true) :
    Reached (h.setInfo cur { (h.node cur).info with existence := ex }) rs
  | group {h h' : Heap D} {rs : List Root} {egp : Addr} {ok : Bool} (hr : Reached h rs)
    (hrun : existenceAlloc ok h = some (h', egp)) : Reached h' rs
  | switch {h : Heap D} {rs : List Root} (hr : Reached h rs) (egp : Addr) :
    Reached (existenceSwitch h egp) rs

/-- The nodes of a tree, its sentinels too. -/
def own (trp : Root) (t : ITree D) : List Addr := trp.max :: t.addrs

/-- The trees at the roots. -/
structure Forest (T : Root → ITree D) (h : Heap D) (rs : List Root) : Prop where
  wf : ∀ r ∈ rs, Wf h r (T r)
  apart : ∀ r ∈ rs, ∀ r' ∈ rs, r ≠ r' → ∀ a ∈ own r (T r), a ∉ own r' (T r')
  old : ∀ r ∈ rs, ∀ x, Leaf (T r) x → Old h x.2.existence

variable {h h' : Heap D} {rs : List Root} {trp : Root} {T : Root → ITree D} {t' : ITree D} {k : Key}

theorem Wf.own_fresh {t : ITree D} (hw : Wf h trp t) : ∀ a ∈ own trp t, a < h.fresh := by
  intro a ha
  rcases List.mem_cons.mp ha with rfl | ha
  · exact hw.maxFresh
  · exact hw.fresh a ha

/-- **An operation on one tree** leaves the others as they are. -/
theorem Forest.upd (hF : Forest T h rs) (ht : trp ∈ rs) (hu : Upd h h' trp (T trp) t')
    (hold : ∀ x, Leaf t' x → Old h' x.2.existence) :
    Forest (Function.update T trp t') h' rs := by
  have happart : ∀ r ∈ rs, r ≠ trp → ∀ a ∈ own r (T r), a ∉ own trp t' := by
    intro r hr hne a ha hm
    have hout := hF.apart r hr trp ht hne a ha
    rcases List.mem_cons.mp hm with rfl | hm
    · exact hout List.mem_cons_self
    · rcases hu.addrs a hm with hm | hm
      · exact hout (List.mem_cons_of_mem _ hm)
      · exact absurd ((hF.wf r hr).own_fresh a ha) (not_lt.mpr hm)
  refine ⟨fun r hr => ?_, fun r hr r' hr' hne a ha => ?_, fun r hr x hx => ?_⟩
  · by_cases hrt : r = trp
    · subst hrt
      rw [Function.update_self]
      exact hu.wf
    · rw [Function.update_of_ne hrt]
      have hkeep : ∀ a ∈ own r (T r), h'.node a = h.node a := fun a ha =>
        hu.keep a ((hF.wf r hr).own_fresh a ha) fun hm =>
          hF.apart r hr trp ht hrt a ha (List.mem_cons_of_mem _ hm)
      exact (hF.wf r hr).congr_own (hkeep _ List.mem_cons_self)
        (fun a ha => hkeep a (List.mem_cons_of_mem _ ha)) hu.fresh
  · by_cases hrt : r = trp
    · subst hrt
      rw [Function.update_self] at ha
      rw [Function.update_of_ne hne.symm]
      exact fun hm => happart r' hr' hne.symm a hm ha
    · rw [Function.update_of_ne hrt] at ha
      by_cases hrt' : r' = trp
      · subst hrt'
        rw [Function.update_self]
        exact happart r hr hrt a ha
      · rw [Function.update_of_ne hrt']
        exact hF.apart r hr r' hr' hne a ha
  · by_cases hrt : r = trp
    · subst hrt
      rw [Function.update_self] at hx
      exact hold x hx
    · rw [Function.update_of_ne hrt] at hx
      intro ep hep
      rw [hu.group]
      exact hF.old r hr x hx ep hep

/-- Nothing changes but nodes outside of the trees, switches and new groups. -/
theorem Forest.congr (hF : Forest T h rs) (hnode : ∀ a < h.fresh, h'.node a = h.node a)
    (hfresh : h.fresh ≤ h'.fresh) (hgrp : h.freshGroup ≤ h'.freshGroup) : Forest T h' rs where
  wf := fun r hr => (hF.wf r hr).congr hnode hfresh
  apart := hF.apart
  old := fun r hr x hx ep hep => lt_of_lt_of_le (hF.old r hr x hx ep hep) hgrp

/-- A tree that is as before. -/
theorem Forest.same (hF : Forest T h rs) (ht : trp ∈ rs) (hu : Upd h h' trp (T trp) (T trp)) :
    Forest T h' rs := by
  have := hF.upd ht hu fun x hx ep hep => by
    rw [hu.group]
    exact hF.old trp ht x hx ep hep
  rwa [Function.update_eq_self] at this

/-- A new tree is apart from the others. -/
theorem Forest.alloc (hF : Forest T h rs) :
    ∃ T', Forest T' (treeAlloc h).1 ((treeAlloc h).2 :: rs) := by
  have hne : ∀ r ∈ rs, r ≠ (treeAlloc h).2 := by
    rintro r hr rfl
    exact absurd (hF.wf _ hr).maxFresh (not_lt.mpr (Nat.le_succ _))
  have hnode : ∀ a < h.fresh, (treeAlloc h).1.node a = h.node a := by
    intro a ha
    simp only [treeAlloc, Heap.new, Function.update_of_ne (ne_of_lt ha),
      Function.update_of_ne (ne_of_lt (Nat.lt_succ_of_lt ha))]
  have hF' := hF.congr hnode (Nat.le_add_right h.fresh 2) le_rfl
  have hnew : ∀ a ∈ own (treeAlloc h).2 (node h.fresh (sentinel keyMin none : Node D).info nil nil),
      h.fresh ≤ a := by
    intro a ha
    rcases List.mem_cons.mp ha with rfl | ha
    · exact Nat.le_succ _
    · obtain rfl : a = h.fresh := by simpa using ha
      exact le_rfl
  refine ⟨Function.update T (treeAlloc h).2 (node h.fresh (sentinel keyMin none : Node D).info nil nil),
    fun r hr => ?_, fun r hr r' hr' hrr a ha hm => ?_, fun r hr x hx => ?_⟩
  · rcases List.mem_cons.mp hr with rfl | hr
    · rw [Function.update_self]
      exact wf_treeAlloc h
    · rw [Function.update_of_ne (hne r hr)]
      exact hF'.wf r hr
  · rcases List.mem_cons.mp hr with rfl | hr <;> rcases List.mem_cons.mp hr' with rfl | hr'
    · exact hrr rfl
    · rw [Function.update_self] at ha
      rw [Function.update_of_ne (hne r' hr')] at hm
      exact absurd ((hF.wf r' hr').own_fresh a hm) (not_lt.mpr (hnew a ha))
    · rw [Function.update_of_ne (hne r hr)] at ha
      rw [Function.update_self] at hm
      exact absurd ((hF.wf r hr).own_fresh a ha) (not_lt.mpr (hnew a hm))
    · rw [Function.update_of_ne (hne r hr)] at ha
      rw [Function.update_of_ne (hne r' hr')] at hm
      exact hF.apart r hr r' hr' hrr a ha hm
  · rcases List.mem_cons.mp hr with rfl | hr
    · rw [Function.update_self] at hx
      obtain rfl := List.mem_singleton.mp hx.1
      cases hx.2
    · rw [Function.update_of_ne (hne r hr)] at hx
      exact hF'.old r hr x hx

/-- A store to the existence pointer of a leaf. -/
theorem Forest.setExistence {b : Addr} {i : Info D} {ex : Option Existence} (hF : Forest T h rs)
    (ht : trp ∈ rs) (hx : Leaf (T trp) (b, i)) (hex : Old h ex) :
    ∃ T', Forest T' (h.setInfo b { i with existence := ex }) rs ∧
      (∀ y, Leaf (T' trp) y ↔ y = (b, { i with existence := ex }) ∨ (Leaf (T trp) y ∧ y ≠ (b, i))) ∧
      ∀ r, r ≠ trp → T' r = T r := by
  obtain ⟨t', hu, hleaf⟩ := setExistence_upd (hF.wf _ ht) hx ex
  refine ⟨Function.update T trp t', hF.upd ht hu fun x hx ep hep => ?_, fun y => ?_, fun r hr => ?_⟩
  · rcases (hleaf x).mp hx with rfl | ⟨hx, -⟩
    · exact hex ep hep
    · exact hF.old _ ht x hx ep hep
  · rw [Function.update_self]
    exact hleaf y
  · exact Function.update_of_ne hr _ _

/-! ### What an operation may do -/

/-- Whatever an insertion returns, it added a leaf or nothing. -/
theorem insert_any {t : ITree D} (hw : Wf h trp t) {ex : Option Existence} {okNew okInt wait : Bool}
    {code : Code} {d : D}
    (hrun : treeInsertExistence okNew okInt h trp k d ex wait = .ret (h', code)) :
    ∃ t', Upd h h' trp t t' ∧ ∀ x, Leaf t' x → Leaf t x ∨ x.2.existence = ex := by
  by_cases hex : ∃ x, Leaf t x ∧ x.2.key = k
  · obtain ⟨x, hx, hk⟩ := hex
    obtain ⟨h₁, hu, hrun₁⟩ := insert_same hw hx hk d ex okNew okInt wait
    rw [hrun₁] at hrun
    refine ⟨t, ?_, fun y hy => .inl hy⟩
    split at hrun
    · split at hrun
      · obtain ⟨rfl, -⟩ := Prod.mk.inj (Out.ret.inj hrun)
        exact hu
      · split at hrun
        · cases hrun
        · obtain ⟨rfl, -⟩ := Prod.mk.inj (Out.ret.inj hrun)
          exact hu
    · obtain ⟨rfl, -⟩ := Prod.mk.inj (Out.ret.inj hrun)
      exact hu
  · obtain ⟨h₁, c, hrun₁, hres⟩ := insert_upd hw (fun x hx hk => hex ⟨x, hx, hk⟩) d ex okNew okInt wait
    rw [hrun₁] at hrun
    obtain ⟨rfl, -⟩ := Prod.mk.inj (Out.ret.inj hrun)
    rcases hres with ⟨-, t', hu, hleaf⟩ | ⟨-, hu, -⟩
    · refine ⟨t', hu, fun x hx => ?_⟩
      rcases (hleaf x).mp hx with rfl | hx
      · exact .inr rfl
      · exact .inl hx
    · exact ⟨t, hu, fun x hx => .inl hx⟩

/-- Whatever a deletion returns, it removed a leaf or nothing. -/
theorem delete_any {t : ITree D} (hw : Wf h trp t) {ex : Option Existence} {wait : Bool} {code : Code}
    {d : Option D} (hrun : treeDeleteExistence h trp k ex wait = .ret (h', code, d)) :
    ∃ t', Upd h h' trp t t' ∧ ∀ x, Leaf t' x → Leaf t x := by
  by_cases hex : ∃ x, Leaf t x ∧ x.2.key = k ∧ x.2.existence = ex
  · obtain ⟨x, hx, hk, rfl⟩ := hex
    obtain ⟨h₁, t', hrun₁, hu, hleaf⟩ := delete_upd hw hx hk wait
    rw [hrun₁] at hrun
    obtain ⟨rfl, -⟩ := Prod.mk.inj (Out.ret.inj hrun)
    exact ⟨t', hu, fun y hy => ((hleaf y).mp hy).1⟩
  · refine ⟨t, ?_, fun y hy => hy⟩
    obtain ⟨c, b, i, l, r, hf⟩ := found hw k
    have hleaf := hf.leaf_eq hw
    have hb : (h.node b).info = i := by rw [hf.cell]
    have hno : ¬ (hasData i = true ∧ i.key = k ∧ i.existence = ex) := fun hm =>
      hex ⟨(b, i), ⟨hf.inTree, hm.1⟩, hm.2⟩
    have hsame : h' = h := by
      unfold treeDeleteExistence at hrun
      simp only [hf.look, hf.notRaced, hleaf, hf.not_grew, hb, Bool.false_eq_true, if_false] at hrun
      split at hrun
      · exact (Prod.mk.inj (Out.ret.inj hrun)).1.symm
      · split at hrun
        · split at hrun
          · split at hrun
            · cases hrun
            · exact (Prod.mk.inj (Out.ret.inj hrun)).1.symm
          · exact (Prod.mk.inj (Out.ret.inj hrun)).1.symm
        · rename_i he
          split at hrun
          · exact (Prod.mk.inj (Out.ret.inj hrun)).1.symm
          · rename_i hk
            simp only [Bool.or_eq_true, Bool.not_eq_true', decide_eq_true_eq, not_or,
              Bool.not_eq_false, not_not] at hk
            exact absurd ⟨hk.1, hk.2, not_not.mp he⟩ hno
    rw [hsame]
    exact hw.upd_same (fun _ _ => rfl) le_rfl rfl rfl

/-- The trees of a memory that operations lead to. -/
theorem Reached.forest (hr : Reached h rs) : ∃ T, Forest T h rs := by
  induction hr with
  | start h => exact ⟨fun _ => nil, by simp, by simp, by simp⟩
  | alloc _ ih =>
    obtain ⟨T, hF⟩ := ih
    exact hF.alloc
  | insert _ ht hex hrun ih =>
    obtain ⟨T, hF⟩ := ih
    obtain ⟨t', hu, hleaf⟩ := insert_any (hF.wf _ ht) hrun
    refine ⟨_, hF.upd ht hu fun x hx ep hep => ?_⟩
    rw [hu.group]
    rcases hleaf x hx with hx | he
    · exact hF.old _ ht x hx ep hep
    · exact hex ep (he.symm.trans hep)
  | delete _ ht hrun ih =>
    obtain ⟨T, hF⟩ := ih
    obtain ⟨t', hu, hleaf⟩ := delete_any (hF.wf _ ht) hrun
    refine ⟨_, hF.upd ht hu fun x hx ep hep => ?_⟩
    rw [hu.group]
    exact hF.old _ ht x (hleaf x hx) ep hep
  | @attach h rs trp k par cur ex _ ht hex hlook hleaf ih =>
    obtain ⟨T, hF⟩ := ih
    obtain ⟨c, b, i, l, r, hf⟩ := found (hF.wf _ ht) k
    obtain ⟨-, rfl⟩ := Prod.mk.inj (Option.some.inj (hf.look.symm.trans hlook))
    have hi : (h.node b).info = i := by rw [hf.cell]
    rw [hf.leaf_eq (hF.wf _ ht)] at hleaf
    obtain ⟨T', hF', -⟩ := hF.setExistence ht ⟨hf.inTree, hleaf⟩ hex
    rw [hi]
    exact ⟨T', hF'⟩
  | @group h h' rs egp ok _ hrun ih =>
    obtain ⟨T, hF⟩ := ih
    unfold existenceAlloc at hrun
    split at hrun
    · obtain ⟨rfl, -⟩ := Prod.mk.inj (Option.some.inj hrun)
      exact ⟨T, hF.congr (fun _ _ => rfl) le_rfl (Nat.le_succ _)⟩
    · cases hrun
  | switch _ egp ih =>
    obtain ⟨T, hF⟩ := ih
    exact ⟨T, hF.congr (fun _ _ => rfl) le_rfl le_rfl⟩

/-- A memory with nothing in it. -/
def emptyHeap : Heap ℕ := ⟨fun _ => initTreenode keyMin, 0, fun _ => 0, 0⟩

def five : Key := ⟨5, by decide⟩

end Issaquah
end Perfbook
