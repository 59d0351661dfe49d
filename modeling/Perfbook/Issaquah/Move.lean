/-
# `tree_atomic_move` is atomic

A move marks the leaf of the source as outgoing (`add_upd`), puts an incoming
leaf into the destination, switches the group, deletes the leaf of the source,
and makes the new one permanent. If something is missing on the way it takes
the mark back (`undo_spec`), and then no tree has changed. Else the key
has changed trees, and after each step it exists in exactly one of the two
(`treeAtomicMove_atomic`).

Key definitions: `Holds`, `KeyExists`, `AtomicMove`.
Key theorems: `undo_spec`, `finish_spec`, `treeAtomicMove_atomic`.
-/
import Mathlib.Logic.Basic
import Perfbook.Issaquah.Forest

namespace Perfbook
namespace Issaquah

open Bst Bst.Tree

variable {D : Type}

/-- The tree has a leaf with the key, the data and the existence pointer. -/
def Holds (h : Heap D) (trp : Root) (k : Key) (d : D) (ex : Option Existence) : Prop :=
  ∃ par cur, treeLookupNode h trp k = some (par, cur) ∧ treeLeafNode (h.node cur) = true ∧
    (h.node cur).info.key = k ∧ (h.node cur).info.data = some d ∧ (h.node cur).info.existence = ex

/-- The tree has a leaf with the key that exists. -/
def KeyExists (h : Heap D) (trp : Root) (k : Key) : Prop :=
  ∃ d ex, Holds h trp k d ex ∧ existenceExists h.existenceSwitch ex = true

/-- What a move from `h` is to do, with the other trees of the memory as well. -/
structure AtomicMove (h : Heap D) (rs : List Root) (srcp dstp : Root) (k : Key) (mv : Moved D) :
    Prop where
  failed : mv.code ≠ .ok → ∀ trp ∈ rs, ∀ j e ex, Holds mv.heap trp j e ex ↔ Holds h trp j e ex
  moved : mv.code = .ok → ∃ d, mv.data = some d ∧ Holds h srcp k d none ∧
    (∀ e ex, ¬ Holds h dstp k e ex) ∧
    (∀ j e ex, Holds mv.heap srcp j e ex ↔ Holds h srcp j e ex ∧ j ≠ k) ∧
    (∀ j e ex, Holds mv.heap dstp j e ex ↔ Holds h dstp j e ex ∨ j = k ∧ e = d ∧ ex = none) ∧
    ∀ trp ∈ rs, trp ≠ srcp → trp ≠ dstp → ∀ j e ex, Holds mv.heap trp j e ex ↔ Holds h trp j e ex
  atomic : mv.code = .ok → ∀ m ∈ h :: mv.steps, Xor (KeyExists m srcp k) (KeyExists m dstp k)
  released : ∀ trp ∈ rs, ∀ j e half, ¬ Holds mv.heap trp j e (some ⟨h.freshGroup, half⟩)
  others : ∀ g ≠ h.freshGroup, mv.heap.existenceSwitch g = h.existenceSwitch g

variable {h h' : Heap D} {rs : List Root} {trp srcp dstp : Root} {T : Root → ITree D} {t t' : ITree D}
  {k : Key} {b : Addr} {i : Info D} {ep : Existence} {ex : Option Existence} {egp : Addr}

/-! ### Leaves -/

theorem holds_iff (hw : Wf h trp t) {d : D} : Holds h trp k d ex ↔
    ∃ x, Leaf t x ∧ x.2.key = k ∧ x.2.data = some d ∧ x.2.existence = ex := by
  obtain ⟨c, b, i, l, r, hf⟩ := found hw k
  have hi : (h.node b).info = i := by rw [hf.cell]
  constructor
  · rintro ⟨par, cur, hlook, hleaf, hrest⟩
    obtain ⟨-, rfl⟩ := Prod.mk.inj (Option.some.inj (hf.look.symm.trans hlook))
    rw [hf.leaf_eq hw] at hleaf
    rw [hi] at hrest
    exact ⟨(b, i), ⟨hf.inTree, hleaf⟩, hrest⟩
  · rintro ⟨x, hx, hk, hrest⟩
    obtain ⟨rfl, hd, -⟩ := (hf.leaf_iff hw).mp ⟨hx, hk⟩
    exact ⟨_, b, hf.look, (hf.leaf_eq hw).trans hd, by rw [hi]; exact ⟨hk, hrest⟩⟩

/-- Trees with the same leaves hold the same. -/
theorem holds_congr (hw : Wf h trp t) (hw' : Wf h' trp t') (hl : ∀ x, Leaf t' x ↔ Leaf t x) {d : D} :
    Holds h' trp k d ex ↔ Holds h trp k d ex := by
  rw [holds_iff hw, holds_iff hw']
  exact exists_congr fun x => and_congr_left fun _ => hl x

/-- Whether the key exists, from its leaf. -/
theorem keyExists_iff (hw : Wf h trp t) {x : Addr × Info D} (hx : Leaf t x) (hk : x.2.key = k) :
    KeyExists h trp k ↔ existenceExists h.existenceSwitch x.2.existence = true := by
  unfold KeyExists
  obtain ⟨d, hd⟩ := Option.isSome_iff_exists.mp hx.2
  constructor
  · rintro ⟨e, ex, hh, hex⟩
    obtain ⟨y, hy, hyk, -, rfl⟩ := (holds_iff hw).mp hh
    rwa [← leaf_unique hw hy.1 hx.1 hy.2 hx.2 (hyk.trans hk.symm)]
  · intro hex
    exact ⟨d, _, (holds_iff hw).mpr ⟨x, hx, hk, hd, rfl⟩, hex⟩

theorem not_keyExists (hw : Wf h trp t) (hno : ∀ x, Leaf t x → x.2.key ≠ k) : ¬ KeyExists h trp k := by
  rintro ⟨d, ex, hh, -⟩
  obtain ⟨x, hx, hk, -⟩ := (holds_iff hw).mp hh
  exact hno x hx hk

/-! ### Marks -/

theorem find_leaf (hw : Wf h trp t) (hx : Leaf t (b, i)) (hk : i.key = k) (ep : Option Existence) :
    treeChangeExistenceFind h trp k ep =
      if ep = i.existence then .ret (.ok, some b) else .ret (.ebusy, none) := by
  obtain ⟨c, b', i', l, r, hf⟩ := found hw k
  obtain ⟨he, hd, -⟩ := (hf.leaf_iff hw).mp ⟨hx, hk⟩
  obtain ⟨rfl, rfl⟩ := Prod.mk.inj he
  have hdel := (hw.live _ hf.inTree).1
  have hi : (h.node b).info = i := by rw [hf.cell]
  unfold treeChangeExistenceFind
  simp only [hf.look, hf.leaf_eq hw, hi, hd, hk, show i.deleted = false from hdel]
  simp

theorem find_none (hw : Wf h trp t) (hno : ∀ x, Leaf t x → x.2.key ≠ k) (ep : Option Existence) :
    treeChangeExistenceFind h trp k ep = .ret (.enoent, none) := by
  obtain ⟨c, b, i, l, r, hf⟩ := found hw k
  have hdel := (hw.live _ hf.inTree).1
  have hi : (h.node b).info = i := by rw [hf.cell]
  unfold treeChangeExistenceFind
  simp only [hf.look, hf.leaf_eq hw, hi, show i.deleted = false from hdel]
  cases hd : hasData i with
  | false => simp
  | true => simp [show i.key ≠ k from hno (b, i) ⟨hf.inTree, hd⟩]

/-- The memory holds what the tree says of a leaf. -/
theorem leaf_info (hw : Wf h trp t) (hx : Leaf t (b, i)) : (h.node b).info = i := by
  obtain ⟨c, b', i', l, r, hf⟩ := found hw i.key
  obtain ⟨he, -, -⟩ := (hf.leaf_iff hw).mp ⟨hx, rfl⟩
  obtain ⟨rfl, rfl⟩ := Prod.mk.inj he
  rw [hf.cell]

theorem add_eq (hw : Wf h trp t) (hx : Leaf t (b, i)) (hk : i.key = k) (hex : i.existence = none)
    (ep : Existence) : treeExistenceAdd h trp k ep =
      .ret (h.setInfo b { i with existence := some ep }, .ok, i.data) := by
  unfold treeExistenceAdd existenceSet
  rw [find_leaf hw hx hk, if_pos hex.symm]
  simp only [Out.bind, leaf_info hw hx, hex]
  simp

theorem remove_eq (hw : Wf h trp t) (hx : Leaf t (b, i)) (hk : i.key = k)
    (hex : i.existence = some ep) : treeExistenceRemove h trp k ep =
      .ret (h.setInfo b { i with existence := none }, .ok) := by
  unfold treeExistenceRemove existenceClear
  rw [find_leaf hw hx hk, if_pos hex.symm]
  simp only [Out.bind, leaf_info hw hx, hex]
  simp

/-! ### Failure -/

/-- The trees have the same leaves. -/
def SameLeaves (rs : List Root) (T T' : Root → ITree D) : Prop :=
  ∀ r ∈ rs, ∀ y, Leaf (T' r) y ↔ Leaf (T r) y

/-- The trees have the same leaves but one, which has the mark of a move. -/
structure Marked (rs : List Root) (T T' : Root → ITree D) (srcp : Root) (b : Addr) (i : Info D)
    (ep : Existence) : Prop where
  here : ∀ y, Leaf (T' srcp) y ↔
    y = (b, { i with existence := some ep }) ∨ (Leaf (T srcp) y ∧ y ≠ (b, i))
  there : ∀ r ∈ rs, r ≠ srcp → ∀ y, Leaf (T' r) y ↔ Leaf (T r) y

theorem AtomicMove.of_failed {mv : Moved D} {T' : Root → ITree D} (hF : Forest T h rs)
    (hF' : Forest T' mv.heap rs) (hsame : SameLeaves rs T T') (hcode : mv.code ≠ .ok)
    (hsw : ∀ g ≠ h.freshGroup, mv.heap.existenceSwitch g = h.existenceSwitch g) :
    AtomicMove h rs srcp dstp k mv where
  failed := fun _ trp ht j e ex => holds_congr (hF.wf trp ht) (hF'.wf trp ht) (hsame trp ht)
  moved := fun hok => absurd hok hcode
  atomic := fun hok => absurd hok hcode
  released := by
    intro trp ht j e half hh
    obtain ⟨x, hx, -, -, hex⟩ := (holds_iff (hF'.wf trp ht)).mp hh
    exact absurd (hF.old trp ht x ((hsame trp ht x).mp hx) _ hex) (lt_irrefl _)
  others := hsw

/-- **The undo path** takes the mark back. -/
theorem undo_spec {h₀ : Heap D} {T' : Root → ITree D} (hw : Wf h₀ srcp (T srcp)) (hs : srcp ∈ rs)
    (hx : Leaf (T srcp) (b, i)) (hk : i.key = k) (hex : i.existence = none) (hF : Forest T' h rs)
    (hm : Marked rs T T' srcp b i ⟨egp, .outgoing⟩) (code : Code) (steps : List (Heap D)) :
    ∃ h' T'', moveUndo h srcp k egp code steps = .ret ⟨h', code, none, steps ++ [h']⟩ ∧
      Forest T'' h' rs ∧ SameLeaves rs T T'' ∧ h'.existenceSwitch = h.existenceSwitch := by
  have hx₁ := (hm.here _).mpr (.inl rfl)
  have hold : Old h none := fun _ he => nomatch he
  obtain ⟨T'', hF'', hhere, hthere⟩ := hF.setExistence hs hx₁ hold
  have hmark : ∀ y, Leaf (T srcp) y → y ≠ (b, { i with existence := some ⟨egp, .outgoing⟩ }) := by
    rintro y hy rfl
    have he := congrArg (fun x => x.2.existence) (leaf_unique hw hy.1 hx.1 hy.2 hx.2 rfl)
    exact absurd (he.trans hex) (by simp)
  have hback : ({ { i with existence := some ⟨egp, .outgoing⟩ } with existence := none } : Info D) = i := by
    rw [← hex]
  refine ⟨_, T'', ?_, hF'', fun r hr y => ?_, rfl⟩
  · unfold moveUndo
    rw [remove_eq (hF.wf _ hs) hx₁ hk rfl]
    rfl
  · by_cases hrs : r = srcp
    · subst hrs
      rw [hhere, hm.here, hback]
      have hy := hmark y
      constructor
      · rintro (rfl | hy)
        · exact hx
        · tauto
      · intro hl
        by_cases hyb : y = (b, i)
        · exact .inl hyb
        · exact .inr ⟨.inr ⟨hl, hyb⟩, hy hl⟩
    · rw [hthere r hrs]
      exact hm.there r hr hrs y

/-! ### Success -/

theorem exists_outgoing {sw : Addr → ℕ} (hsw : sw egp = 0) :
    existenceExists sw (some ⟨egp, .outgoing⟩) = true ∧
      existenceExists sw (some ⟨egp, .incoming⟩) = false := by
  simp [existenceExists, existenceExistsOf, hsw, Half.offset, existenceArray]

theorem exists_incoming {sw : Addr → ℕ} (hsw : sw egp = 2) :
    existenceExists sw (some ⟨egp, .outgoing⟩) = false ∧
      existenceExists sw (some ⟨egp, .incoming⟩) = true := by
  simp [existenceExists, existenceExistsOf, hsw, Half.offset, existenceArray]

/-- **After the insertion**: the switch, the deletion from the source and the
store that makes the new leaf permanent. -/
theorem finish_spec {h₀ : Heap D} {T' : Root → ITree D} {n : Addr} {d : D} (hF₀ : Forest T h₀ rs)
    (hs : srcp ∈ rs) (hd : dstp ∈ rs) (hne : srcp ≠ dstp) (hx : Leaf (T srcp) (b, i))
    (hk : i.key = k) (hF : Forest T' h rs)
    (hsrc : ∀ y, Leaf (T' srcp) y ↔ y = (b, { i with existence := some ⟨egp, .outgoing⟩ }) ∨
      (Leaf (T srcp) y ∧ y ≠ (b, i)))
    (hdst : ∀ y, Leaf (T' dstp) y ↔ y = (n, newLeaf k d (some ⟨egp, .incoming⟩)) ∨ Leaf (T dstp) y)
    (hno : ∀ x, Leaf (T dstp) x → x.2.key ≠ k) (steps : List (Heap D)) :
    ∃ h₁ h₂ h₃ T'', moveFinish h srcp dstp k egp steps =
        .ret ⟨h₃, .ok, i.data, steps ++ [h₁, h₂, h₃]⟩ ∧ Forest T'' h₃ rs ∧
      (∀ y, Leaf (T'' srcp) y ↔ Leaf (T srcp) y ∧ y.2.key ≠ k) ∧
      (∀ y, Leaf (T'' dstp) y ↔ y = (n, newLeaf k d none) ∨ Leaf (T dstp) y) ∧
      (∀ r, r ≠ srcp → r ≠ dstp → T'' r = T' r) ∧
      h₃.existenceSwitch = Function.update h.existenceSwitch egp 2 ∧
      ∀ m ∈ [h₁, h₂, h₃], ¬ KeyExists m srcp k ∧ KeyExists m dstp k := by
  set h₁ := existenceSwitch h egp with hh₁
  have hF₁ : Forest T' h₁ rs := hF.congr (fun _ _ => rfl) le_rfl le_rfl
  have hsw₁ : h₁.existenceSwitch egp = 2 := Function.update_self _ _ _
  have hx₁ := (hsrc _).mpr (.inl rfl)
  obtain ⟨h₂, t₂, hrun₂, hu₂, hleaf₂⟩ := delete_upd (hF₁.wf _ hs) hx₁ hk false
  have hF₂ := hF₁.upd hs hu₂ fun x hx ep hep => by
    rw [hu₂.group]
    exact hF₁.old _ hs x ((hleaf₂ x).mp hx).1 ep hep
  have hgone : ∀ y, Leaf t₂ y ↔ Leaf (T srcp) y ∧ y.2.key ≠ k := by
    intro y
    rw [hleaf₂, hsrc]
    constructor
    · rintro ⟨hy | ⟨hy, hyb⟩, hne⟩
      · exact absurd hy hne
      · refine ⟨hy, fun hyk => hyb ?_⟩
        exact leaf_unique (hF₀.wf _ hs) hy.1 hx.1 hy.2 hx.2 (hyk.trans hk.symm)
    · rintro ⟨hy, hyk⟩
      refine ⟨.inr ⟨hy, ?_⟩, ?_⟩
      · rintro rfl
        exact hyk hk
      · rintro rfl
        exact hyk hk
  have hdst₂ : Function.update T' srcp t₂ dstp = T' dstp := Function.update_of_ne hne.symm _ _
  have hn₂ : Leaf (Function.update T' srcp t₂ dstp) (n, newLeaf k d (some ⟨egp, .incoming⟩)) := by
    rw [hdst₂, hdst]
    exact .inl rfl
  have hold₂ : Old h₂ none := fun _ he => nomatch he
  obtain ⟨T₃, hF₃, hhere₃, hthere₃⟩ := hF₂.setExistence hd hn₂ hold₂
  have hsrc₃ : T₃ srcp = t₂ := by rw [hthere₃ _ hne, Function.update_self]
  have hdst₃ : ∀ y, Leaf (T₃ dstp) y ↔ y = (n, newLeaf k d none) ∨ Leaf (T dstp) y := by
    intro y
    rw [hhere₃, hdst₂, hdst]
    have hkey : Leaf (T dstp) y → y ≠ (n, newLeaf k d (some ⟨egp, .incoming⟩)) := by
      rintro hy rfl
      exact hno _ hy rfl
    tauto
  refine ⟨h₁, h₂, _, T₃, ?_, hF₃, fun y => by rw [hsrc₃, hgone], hdst₃, fun r hrs hrd => ?_, ?_, ?_⟩
  · unfold moveFinish
    simp only [← hh₁]
    rw [hrun₂]
    simp only [Out.bind]
    rw [remove_eq (hF₂.wf _ hd) hn₂ rfl rfl]
  · rw [hthere₃ r hrd, Function.update_of_ne hrs]
  · exact hu₂.switch
  · have hsw₂ : h₂.existenceSwitch egp = 2 := by rw [hu₂.switch, hsw₁]
    have hnone₂ : ¬ KeyExists h₂ srcp k :=
      not_keyExists (hF₂.wf _ hs) fun x hx => by
        rw [Function.update_self] at hx
        exact ((hgone x).mp hx).2
    intro m hm
    rw [List.mem_cons, List.mem_cons, List.mem_singleton] at hm
    rcases hm with rfl | rfl | rfl
    · rw [keyExists_iff (hF₁.wf _ hs) hx₁ hk, keyExists_iff (hF₁.wf _ hd) ((hdst _).mpr (.inl rfl)) rfl]
      exact ⟨by simp [(exists_incoming hsw₁).1], (exists_incoming hsw₁).2⟩
    · rw [keyExists_iff (hF₂.wf _ hd) hn₂ rfl]
      exact ⟨hnone₂, (exists_incoming hsw₂).2⟩
    · refine ⟨not_keyExists (hF₃.wf _ hs) fun x hx => ?_, ?_⟩
      · rw [hsrc₃] at hx
        exact ((hgone x).mp hx).2
      · exact (keyExists_iff (hF₃.wf _ hd) ((hdst₃ _).mpr (.inl rfl)) rfl).mpr rfl

/-! ### The move -/

/-- The memory with a new group. -/
def withGroup (h : Heap D) : Heap D :=
  { h with existenceSwitch := Function.update h.existenceSwitch h.freshGroup 0
           freshGroup := h.freshGroup + 1 }

/-- A successful move. -/
theorem AtomicMove.of_moved {h₁ h₂ h₃ m₁ m₂ m₃ : Heap D} {T' : Root → ITree D} {n : Addr} {d : D}
    (hF : Forest T h rs) (hs : srcp ∈ rs) (hd : dstp ∈ rs) (hx : Leaf (T srcp) (b, i))
    (hk : i.key = k) (hex : i.existence = none) (hdata : i.data = some d)
    (hno : ∀ x, Leaf (T dstp) x → x.2.key ≠ k) (hF' : Forest T' m₃ rs)
    (hsrc : ∀ y, Leaf (T' srcp) y ↔ Leaf (T srcp) y ∧ y.2.key ≠ k)
    (hdst : ∀ y, Leaf (T' dstp) y ↔ y = (n, newLeaf k d none) ∨ Leaf (T dstp) y)
    (hoth : ∀ r ∈ rs, r ≠ srcp → r ≠ dstp → ∀ y, Leaf (T' r) y ↔ Leaf (T r) y)
    (hsw : ∀ g ≠ h.freshGroup, m₃.existenceSwitch g = h.existenceSwitch g)
    (hbefore : ∀ m ∈ [h, h₁, h₂, h₃], KeyExists m srcp k ∧ ¬ KeyExists m dstp k)
    (hafter : ∀ m ∈ [m₁, m₂, m₃], ¬ KeyExists m srcp k ∧ KeyExists m dstp k) :
    AtomicMove h rs srcp dstp k ⟨m₃, .ok, some d, [h₁, h₂, h₃] ++ [m₁, m₂, m₃]⟩ where
  failed := fun hcode => absurd rfl hcode
  moved := fun _ => by
    refine ⟨d, rfl, (holds_iff (hF.wf _ hs)).mpr ⟨_, hx, hk, hdata, hex⟩, fun e ex hh => ?_,
      fun j e ex => ?_, fun j e ex => ?_, fun r hr hrs hrd j e ex =>
      holds_congr (hF.wf r hr) (hF'.wf r hr) (hoth r hr hrs hrd)⟩
    · obtain ⟨x, hx, hxk, -⟩ := (holds_iff (hF.wf _ hd)).mp hh
      exact hno x hx hxk
    · rw [holds_iff (hF.wf _ hs), holds_iff (hF'.wf _ hs)]
      constructor
      · rintro ⟨x, hx, rfl, hrest⟩
        exact ⟨⟨x, ((hsrc x).mp hx).1, rfl, hrest⟩, ((hsrc x).mp hx).2⟩
      · rintro ⟨⟨x, hx, rfl, hrest⟩, hne⟩
        exact ⟨x, (hsrc x).mpr ⟨hx, hne⟩, rfl, hrest⟩
    · rw [holds_iff (hF.wf _ hd), holds_iff (hF'.wf _ hd)]
      constructor
      · rintro ⟨x, hx, hxk, hxd, hxe⟩
        rcases (hdst x).mp hx with rfl | hx
        · exact .inr ⟨hxk.symm, (Option.some.inj hxd).symm, hxe.symm⟩
        · exact .inl ⟨x, hx, hxk, hxd, hxe⟩
      · rintro (⟨x, hx, hrest⟩ | ⟨rfl, rfl, rfl⟩)
        · exact ⟨x, (hdst x).mpr (.inr hx), hrest⟩
        · exact ⟨_, (hdst _).mpr (.inl rfl), rfl, rfl, rfl⟩
  atomic := fun _ m hm => by
    rw [List.mem_cons, List.mem_append] at hm
    rcases hm with rfl | hm | hm
    · exact .inl (hbefore m List.mem_cons_self)
    · exact .inl (hbefore m (List.mem_cons_of_mem _ hm))
    · exact .inr (hafter m hm).symm
  released := by
    intro trp ht j e half hh
    obtain ⟨x, hy, -, -, he⟩ := (holds_iff (hF'.wf trp ht)).mp hh
    have hold : Leaf (T trp) x → False := fun hy =>
      absurd (hF.old trp ht x hy _ he) (lt_irrefl _)
    by_cases hts : trp = srcp
    · subst hts
      exact hold ((hsrc x).mp hy).1
    · by_cases htd : trp = dstp
      · subst htd
        rcases (hdst x).mp hy with rfl | hy
        · cases he
        · exact hold hy
      · exact hold ((hoth trp ht hts htd x).mp hy)
  others := hsw

/-- A move after the source is marked. -/
theorem moveInsert_spec {h₁ h₂ : Heap D} {T' : Root → ITree D} {d : D} (hF : Forest T h rs)
    (hs : srcp ∈ rs) (hd : dstp ∈ rs) (hx : Leaf (T srcp) (b, i)) (hk : i.key = k)
    (hex : i.existence = none) (hdata : i.data = some d) (hF₁ : Forest T h₁ rs)
    (hF₂ : Forest T' h₂ rs) (hm : Marked rs T T' srcp b i ⟨h.freshGroup, .outgoing⟩)
    (hgrp : h.freshGroup < h₂.freshGroup) (hzero : h₂.existenceSwitch h.freshGroup = 0)
    (hsw : ∀ g ≠ h.freshGroup, h₂.existenceSwitch g = h.existenceSwitch g) (ch : Chance) :
    ∃ mv, moveInsert ch h₂ srcp dstp k h.freshGroup d [h₁, h₂] = .ret mv ∧
      AtomicMove h rs srcp dstp k mv := by
  have hundo : ∀ (h₃ : Heap D) (code : Code) (steps : List (Heap D)), Forest T' h₃ rs →
      h₃.existenceSwitch = h₂.existenceSwitch → code ≠ .ok →
      ∃ mv, moveUndo h₃ srcp k h.freshGroup code steps = .ret mv ∧
        AtomicMove h rs srcp dstp k mv := by
    intro h₃ code steps hF₃ hsw₃ hc
    obtain ⟨h', T'', hrun, hF', hsame, hsw'⟩ := undo_spec (hF.wf _ hs) hs hx hk hex hF₃ hm code steps
    refine ⟨_, hrun, .of_failed hF hF' hsame hc fun g hg => ?_⟩
    rw [← hsw g hg, ← hsw₃, ← hsw']
  have hx₂ := (hm.here _).mpr (.inl rfl)
  unfold moveInsert
  split
  · exact hundo h₂ _ _ hF₂ rfl fun he => nomatch he
  by_cases hdup : ∃ x, Leaf (T' dstp) x ∧ x.2.key = k
  · -- The key is in the destination, maybe since it is the source.
    obtain ⟨x, hxd, hxk⟩ := hdup
    obtain ⟨h₃, hu, hrun⟩ := insert_same (hF₂.wf _ hd) hxd hxk d (some ⟨h.freshGroup, .incoming⟩)
      ch.leaf ch.internal false
    rw [hrun]
    have hF₃ := hF₂.same hd hu
    cases ch.leaf with
    | false => exact hundo h₃ _ _ hF₃ hu.switch fun he => nomatch he
    | true =>
      by_cases hxe : x.2.existence = none
      · simp only [if_true, hxe, Out.bind]
        exact hundo h₃ _ _ hF₃ hu.switch fun he => nomatch he
      · simp only [if_true, hxe, if_false, Bool.false_eq_true, Out.bind]
        exact hundo h₃ _ _ hF₃ hu.switch fun he => nomatch he
  · have hno' : ∀ x, Leaf (T' dstp) x → x.2.key ≠ k := fun x hxd hxk => hdup ⟨x, hxd, hxk⟩
    have hne : srcp ≠ dstp := by
      rintro rfl
      exact hno' _ hx₂ hk
    have hno : ∀ x, Leaf (T dstp) x → x.2.key ≠ k := fun x hxd =>
      hno' x ((hm.there _ hd hne.symm x).mpr hxd)
    obtain ⟨h₃, code, hrun, hres⟩ := insert_upd (hF₂.wf _ hd) hno' d
      (some ⟨h.freshGroup, .incoming⟩) ch.leaf ch.internal false
    rw [hrun]
    rcases hres with ⟨rfl, t₃, hu, hleaf₃⟩ | ⟨rfl, hu, -⟩
    · have hF₃ := hF₂.upd hd hu fun x hxd ep hep => by
        rw [hu.group]
        rcases (hleaf₃ x).mp hxd with rfl | hxd
        · obtain rfl := Option.some.inj hep
          exact hgrp
        · exact hF₂.old _ hd x hxd ep hep
      have hsrc₃ : Function.update T' dstp t₃ srcp = T' srcp := Function.update_of_ne hne _ _
      have hdst₃ : ∀ y, Leaf (Function.update T' dstp t₃ dstp) y ↔
          y = (h₂.fresh, newLeaf k d (some ⟨h.freshGroup, .incoming⟩)) ∨ Leaf (T dstp) y := by
        intro y
        rw [Function.update_self, hleaf₃, hm.there _ hd hne.symm]
      obtain ⟨m₁, m₂, m₃, T'', hfin, hF'', hsrc, hdst, hoth, hsw₃, hafter⟩ :=
        finish_spec hF hs hd hne hx hk hF₃ (fun y => by rw [hsrc₃, hm.here]) hdst₃ hno
          ([h₁, h₂] ++ [h₃])
      simp only [Out.bind]
      rw [hfin, hdata]
      refine ⟨_, rfl, AtomicMove.of_moved hF hs hd hx hk hex hdata hno hF'' hsrc hdst
        (fun r hr hrs hrd y => ?_) (fun g hg => ?_) (fun m hm' => ?_) hafter⟩
      · rw [hoth r hrs hrd, Function.update_of_ne hrd]
        exact hm.there r hr hrs y
      · rw [hsw₃, Function.update_of_ne hg, hu.switch]
        exact hsw g hg
      · simp only [List.mem_cons, List.not_mem_nil, or_false] at hm'
        have hout := exists_outgoing hzero
        rcases hm' with rfl | rfl | rfl | rfl
        · refine ⟨(keyExists_iff (hF.wf _ hs) hx hk).mpr ?_, not_keyExists (hF.wf _ hd) hno⟩
          rw [hex]
          rfl
        · refine ⟨(keyExists_iff (hF₁.wf _ hs) hx hk).mpr ?_, not_keyExists (hF₁.wf _ hd) hno⟩
          rw [hex]
          rfl
        · exact ⟨(keyExists_iff (hF₂.wf _ hs) hx₂ hk).mpr hout.1, not_keyExists (hF₂.wf _ hd) hno'⟩
        · rw [← hu.switch] at hout
          rw [keyExists_iff (hF₃.wf _ hs) (hsrc₃.symm ▸ hx₂) hk,
            keyExists_iff (hF₃.wf _ hd) ((hdst₃ _).mpr (.inl rfl)) rfl]
          exact ⟨hout.1, by simp [hout.2]⟩
    · exact hundo h₃ _ _ (hF₂.same hd hu) hu.switch fun he => nomatch he

/-- **A move is atomic**: if it fails no tree has changed, if it succeeds the
key has changed trees; after each step of a successful move the key exists in
one of the two trees and not in the other; no leaf keeps a mark of the move. -/
theorem treeAtomicMove_atomic (hr : Reached h rs) (hs : srcp ∈ rs) (hd : dstp ∈ rs) (ch : Chance)
    (k : Key) : ∃ mv, treeAtomicMove ch h srcp dstp k = .ret mv ∧ AtomicMove h rs srcp dstp k mv := by
  obtain ⟨T, hF⟩ := hr.forest
  unfold treeAtomicMove existenceAlloc
  cases ch.group with
  | false =>
    exact ⟨_, rfl, .of_failed hF hF (fun _ _ _ => Iff.rfl) (fun he => nomatch he) fun _ _ => rfl⟩
  | true =>
    have hF₁ : Forest T (withGroup h) rs := hF.congr (fun _ _ => rfl) le_rfl (Nat.le_succ _)
    have hsw₁ : ∀ g ≠ h.freshGroup, (withGroup h).existenceSwitch g = h.existenceSwitch g :=
      fun g hg => Function.update_of_ne hg _ _
    have hzero : (withGroup h).existenceSwitch h.freshGroup = 0 := Function.update_self _ _ _
    have hfail : ∀ (code : Code) (steps : List (Heap D)), code ≠ .ok →
        AtomicMove h rs srcp dstp k ⟨withGroup h, code, none, steps⟩ := fun code steps hc =>
      .of_failed hF hF₁ (fun _ _ _ => Iff.rfl) hc hsw₁
    simp only [if_true]
    rw [← withGroup]
    split
    · exact ⟨_, rfl, hfail _ _ fun he => nomatch he⟩
    by_cases hleaf : ∃ x, Leaf (T srcp) x ∧ x.2.key = k
    · obtain ⟨⟨b, i⟩, hx, hk⟩ := hleaf
      by_cases hex : i.existence = none
      · obtain ⟨d, hdata⟩ := Option.isSome_iff_exists.mp hx.2
        have hold : Old (withGroup h) (some ⟨h.freshGroup, .outgoing⟩) := by
          rintro ep ⟨⟩
          exact Nat.lt_succ_self _
        obtain ⟨T', hF₂, hhere, hthere⟩ := hF₁.setExistence hs hx hold
        have hm : Marked rs T T' srcp b i ⟨h.freshGroup, .outgoing⟩ :=
          ⟨hhere, fun r _ hrs y => by rw [hthere r hrs]⟩
        rw [(add_eq (hF₁.wf _ hs) hx hk hex _).trans (congrArg (fun o => Out.ret (_, Code.ok, o)) hdata)]
        exact moveInsert_spec hF hs hd hx hk hex hdata hF₁ hF₂ hm (Nat.lt_succ_self _) hzero hsw₁ ch
      · unfold treeExistenceAdd
        rw [find_leaf (hF₁.wf _ hs) hx hk, if_neg (Ne.symm hex)]
        exact ⟨_, rfl, hfail _ _ fun he => nomatch he⟩
    · unfold treeExistenceAdd
      rw [find_none (hF₁.wf _ hs) fun x hx hk => hleaf ⟨x, hx, hk⟩]
      exact ⟨_, rfl, hfail _ _ fun he => nomatch he⟩

/-! ### A move that succeeds -/

def source : Root := (treeAlloc emptyHeap).2

def destination : Root := (treeAlloc (treeAlloc emptyHeap).1).2

/-- Two trees, with the element 7 under the key 5 in the first one. -/
def twoTrees : Heap ℕ :=
  ((treeAlloc (treeAlloc emptyHeap).1).1.new ⟨newLeaf five 7 none, none, none⟩).setChild 0 .right
    (some 4)

theorem treeAtomicMove_atomic_five : ∃ mv,
    treeAtomicMove ⟨true, true, true, false, false⟩ twoTrees source destination five = .ret mv ∧
      AtomicMove twoTrees [destination, source] source destination five mv ∧ mv.code = .ok := by
  have hins : treeInsertExistence true true (treeAlloc (treeAlloc emptyHeap).1).1 source five 7 none
      true = .ret (twoTrees, .ok) := rfl
  have hold : Old (treeAlloc (treeAlloc emptyHeap).1).1 none := fun _ h => nomatch h
  have hr : Reached twoTrees [destination, source] :=
    .insert (.alloc (.alloc (.start emptyHeap))) (List.mem_cons_of_mem _ List.mem_cons_self) hold hins
  obtain ⟨mv, hrun, hat⟩ := treeAtomicMove_atomic hr (List.mem_cons_of_mem _ List.mem_cons_self)
    List.mem_cons_self ⟨true, true, true, false, false⟩ five
  refine ⟨mv, hrun, hat, ?_⟩
  have hcode : (treeAtomicMove ⟨true, true, true, false, false⟩ twoTrees source destination five).bind
      (fun mv => .ret mv.code) = .ret Code.ok := rfl
  rw [hrun] at hcode
  exact Out.ret.inj hcode

end Issaquah
end Perfbook
