/-
# The calls of `skiplist_glock.c`

The lock of the head is held from the start to the end of a call. A deletion
makes `sl_seq` odd in between.

Key theorems: `Global.insert_new`, `Global.insert_found`, `Global.delete_found`, `Global.delete_missing`.
-/
import Perfbook.Skip.Ok

namespace Perfbook
namespace Skip

variable {ν K : Type} [DecidableEq ν] [LinearOrder K] {s s' : Mem ν K} {head new x p : ν} {ns lo hi : List ν}
  {m : K → Option ν} {key : K} {t fuel level : ℕ}

namespace Global

omit [DecidableEq ν] [LinearOrder K] in
theorem startWriter_eq (h : s.seq % 2 = 0) : startWriter s = some (nextSeq s) := by
  refine if_neg (?_ : ¬ (s.seq + 1) % 2 ^ 64 % 2 = 0)
  omega

omit [DecidableEq ν] [LinearOrder K] in
theorem endWriter_eq (h : s.seq % 2 = 0) : endWriter (nextSeq s) = some (nextSeq (nextSeq s)) := by
  refine if_pos (?_ : ((s.seq + 1) % 2 ^ 64 + 1) % 2 ^ 64 % 2 = 0)
  omega

omit [DecidableEq ν] in
theorem ok_nextSeq (h : Ok s head ns m) : Ok (nextSeq (nextSeq s)) head ns m :=
  ⟨⟨h.top_head, h.top_lt, h.sorted, h.head_notMem, h.linked, h.above, h.live, h.owner⟩, h.holds, h.free, by
    have := h.even
    change ((s.seq + 1) % 2 ^ 64 + 1) % 2 ^ 64 % 2 = 0
    omega⟩

omit [DecidableEq ν] in
theorem next_head (h : Ok s head (lo ++ hi) m) : s.next (pred s head lo 0) 0 = hi.head? := by
  have hnext := h.next_pred (by decide : 0 < maxLevels)
  rwa [onLevel_zero] at hnext

theorem insertSearch_head (h : Ok s head (lo ++ hi) m) (hlo : ∀ p ∈ lo, s.key p < key)
    (hhi : ∀ p ∈ hi, key ≤ s.key p) (hf : lo.length < fuel) (ht : t < maxLevels) :
    ∃ update, insertSearch fuel key t (s.holding [head]) ((s.holding [head]).toplevel head + 1) head
        (fun _ => none) = some (pred s head lo 0, update) ∧ ∀ j ≤ t, update j = some (pred s head lo j) := by
  have htop : (s.holding [head]).toplevel head + 1 = maxLevels := congrArg (· + 1) h.top_head
  rw [htop]
  exact insertSearch_spec (h.holding [head]) hlo hhi hf (Nat.le_refl maxLevels) h.pred_top.symm
    fun j hj hjt => absurd (ht.trans_le hj) (not_lt.mpr hjt)

theorem deleteSearch_head {c : ℕ} (h : Ok s head (lo ++ hi) m) (hlo : ∀ p ∈ lo, s.key p < key)
    (hhi : ∀ p ∈ hi, key ≤ s.key p) (hf : lo.length < fuel) (hits : Hits s hi key x c) :
    ∃ update, deleteSearch fuel key (nextSeq (s.holding [head])) ((nextSeq (s.holding [head])).toplevel head + 1)
        head .eq (fun _ => none) = some (pred s head lo 0, update) ∧
      ∀ j < c, update j = some (pred s head lo j) := by
  have htop : (nextSeq (s.holding [head])).toplevel head + 1 = maxLevels := congrArg (· + 1) h.top_head
  rw [htop]
  have h' : Levels (nextSeq (s.holding [head])) head (lo ++ hi) :=
    ⟨h.top_head, h.top_lt, h.sorted, h.head_notMem, h.linked, h.above, h.live, h.owner⟩
  have hits' : Hits (nextSeq (s.holding [head])) hi key x c := ⟨hits.le, hits.hit, hits.miss⟩
  exact deleteSearch_spec h' hlo hhi hf hits' (Nat.le_refl maxLevels) h.pred_top.symm .eq
    fun j hj hjc => absurd (hjc.trans_le hits.le) (not_lt.mpr hj)

theorem insert_new (h : Ok s head (lo ++ hi) m) (hlo : ∀ p ∈ lo, s.key p < s.key new)
    (hhi : ∀ p ∈ hi, s.key new < s.key p) (hf : lo.length < fuel) (ht : t < maxLevels)
    (hnew : new ∉ head :: (lo ++ hi)) :
    insert fuel s new head (s.key new) t = some (inserted s head lo new t, .ok) := by
  have hhead : s.locked head = false := h.free head List.mem_cons_self
  have hne : new ≠ head := fun he => hnew (he ▸ List.mem_cons_self)
  have hpred : ∀ j, pred s head lo j ≠ new := fun j he =>
    hnew (List.mem_append_left hi (a := new) (he ▸ pred_mem_cons))
  obtain ⟨update, hs, hu⟩ := insertSearch_head h hlo (fun p hp => (hhi p hp).le) hf ht
  have hnone : (((s.holding [head]).next (pred s head lo 0) 0).any fun q =>
      decide ((s.holding [head]).slCmp q (s.key new) = .eq)) = false := by
    rw [show (s.holding [head]).next _ 0 = _ from (next_head h :)]
    cases hhd : hi.head? with
    | none => rfl
    | some q =>
      exact decide_eq_false fun he => (hhi q (List.mem_of_mem_head? hhd)).ne' (compare_eq_iff_eq.mp he)
  have hfree : (inserted s head lo new t).locked head = false :=
    (Function.update_of_ne hne.symm ..).trans hhead
  have hinit : initNode (s.holding [head]) new head t = (initNode s new head t).holding [head] :=
    initNode_holding (by simpa using hne)
  simp only [insert, lock_free hhead, Option.bind_eq_bind, Option.bind_some, hs, hnone, Bool.false_eq_true,
    if_false, hinit,
    linkLevels_inserted h.toLevels hpred ht hu, unlock_single hfree]

theorem insert_found (h : Ok s head (lo ++ x :: hi) m) (hlo : ∀ p ∈ lo, s.key p < key)
    (hhi : ∀ p ∈ x :: hi, key ≤ s.key p) (hx : s.key x = key) (hf : lo.length < fuel) (ht : t < maxLevels) :
    insert fuel s new head key t = some (s, .eexist) := by
  have hhead : s.locked head = false := h.free head List.mem_cons_self
  obtain ⟨update, hs, -⟩ := insertSearch_head h hlo hhi hf ht
  have hsome : (((s.holding [head]).next (pred s head lo 0) 0).any fun q =>
      decide ((s.holding [head]).slCmp q key = .eq)) = true := by
    rw [show (s.holding [head]).next _ 0 = _ from (next_head h :)]
    exact decide_eq_true (compare_eq_iff_eq.mpr hx)
  simp only [insert, lock_free hhead, Option.bind_eq_bind, Option.bind_some, hs, hsome, if_true,
    unlock_single hhead]

theorem delete_missing (h : Ok s head (lo ++ hi) m) (hlo : ∀ p ∈ lo, s.key p < key)
    (hhi : ∀ p ∈ hi, key < s.key p) (hf : lo.length < fuel) :
    delete fuel s head key = some (nextSeq (nextSeq s), .ptr none) := by
  have hhead : s.locked head = false := h.free head List.mem_cons_self
  obtain ⟨update, hs, -⟩ := deleteSearch_head (x := head) h hlo (fun p hp => (hhi p hp).le) hf (hits_missing hhi)
  have hnext : (nextSeq (s.holding [head])).next (pred s head lo 0) 0 = hi.head? := (next_head h :)
  have hunlock : (nextSeq (nextSeq (s.holding [head]))).unlock head = some (nextSeq (nextSeq s)) :=
    unlock_single (s := nextSeq (nextSeq s)) hhead
  simp only [delete, lock_free hhead, Option.bind_eq_bind, Option.bind_some,
    startWriter_eq (s := s.holding [head]) h.even, hs, hnext, endWriter_eq (s := s.holding [head]) h.even, hunlock]
  cases hhd : hi.head? with
  | none => rfl
  | some q =>
    have hq : (nextSeq (s.holding [head])).slCmp q key ≠ .eq := fun he =>
      (hhi q (List.mem_of_mem_head? hhd)).ne' (compare_eq_iff_eq.mp he)
    exact if_pos hq

theorem delete_found (h : Ok s head (lo ++ x :: hi) m) (hlo : ∀ p ∈ lo, s.key p < key) (hx : s.key x = key)
    (hhi : ∀ p ∈ hi, key < s.key p) (hf : lo.length < fuel) :
    delete fuel s head key = some (nextSeq (nextSeq (erased s head lo x)), .ptr (some x)) := by
  have hhead : s.locked head = false := h.free head List.mem_cons_self
  have hle : ∀ p ∈ x :: hi, key ≤ s.key p :=
    List.forall_mem_cons.mpr ⟨hx.ge, fun p hp => (hhi p hp).le⟩
  obtain ⟨update, hs, hu⟩ := deleteSearch_head h hlo hle hf (hits_found h.toLevels hx hhi)
  have hnext : (nextSeq (s.holding [head])).next (pred s head lo 0) 0 = some x := (next_head h :)
  have heq : (nextSeq (s.holding [head])).slCmp x key = .eq := compare_eq_iff_eq.mpr hx
  have hunlink : unlink update x (s.toplevel x + 1) (nextSeq (s.holding [head])) =
      some (unlinked (nextSeq (s.holding [head])) (pred s head lo) x (s.toplevel x + 1)) :=
    unlink_eq hu fun j _ => h.pred_ne
  have hlive : s.deleted x = false := h.live x (by simp)
  have hunlock : (nextSeq (nextSeq ((erased s head lo x).holding [head]))).unlock head =
      some (nextSeq (nextSeq (erased s head lo x))) :=
    unlock_single (s := nextSeq (nextSeq (erased s head lo x))) hhead
  simp only [delete, lock_free hhead, Option.bind_eq_bind, Option.bind_some,
    startWriter_eq (s := s.holding [head]) h.even, hs, hnext, heq, ne_eq, not_true_eq_false, if_false]
  rw [show (nextSeq (s.holding [head])).toplevel x = s.toplevel x from rfl, hunlink, Option.bind_some,
    if_neg (by rw [show (unlinked (nextSeq (s.holding [head])) (pred s head lo) x _).deleted x = _ from hlive]
               exact Bool.false_ne_true)]
  change (endWriter (nextSeq ((erased s head lo x).holding [head]))).bind _ = _
  rw [endWriter_eq (s := (erased s head lo x).holding [head]) h.even, Option.bind_some, hunlock]
  rfl

end Global

end Skip
end Perfbook
