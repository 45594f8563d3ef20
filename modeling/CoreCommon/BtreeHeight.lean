import CoreCommon.BtreeOrder
import CoreCommon.BtreeView

/-! The height of the tree, and that no loop of finding, inserting and removing takes more rounds
than the tree is high. -/
namespace CoreCommon

namespace AvlTree
variable {α : Type} {t : AvlTree α}

end AvlTree

namespace Btree
open AvlTree
variable {K V : Type} {cmp : K → K → Bool} {k : K}

/-! ### The fuel -/

section fuel

lemma destroy_steady (s : Heap K V) (p : Option ℕ) : Run.Steady fun fuel => s.destroy fuel p := by
  intro fuel x h
  induction fuel generalizing s p x with
  | zero =>
    cases p with
    | none => exact h
    | some a => cases h
  | succ fuel ih =>
    cases p with
    | none => exact h
    | some a =>
      dsimp only at h ⊢
      unfold Heap.destroy at h ⊢
      obtain ⟨n, hn, h⟩ := Run.bind_eq_ok.1 h
      obtain ⟨s₁, hright, h⟩ := Run.bind_eq_ok.1 h
      obtain ⟨s₂, hleft, h⟩ := Run.bind_eq_ok.1 h
      rw [hn, Run.bind_ok]
      exact Run.bind_eq_ok.2 ⟨s₁, ih s n.right s₁ hright,
        Run.bind_eq_ok.2 ⟨s₂, ih s₁ n.left s₂ hleft, h⟩⟩

lemma assign_steady (s : Heap K V) (l : Slot) (p : Option ℕ) :
    Run.Steady fun fuel => s.assign fuel l p :=
  (Run.steady_const _).bind fun old => (Run.steady_const _).bind fun s => destroy_steady s old

lemma rebalance_steady (s : Heap K V) (p : Option ℕ) (rInc rem : Bool) :
    Run.Steady fun fuel => s.rebalance fuel p rInc rem := by
  intro fuel x h
  induction fuel generalizing s p rInc with
  | zero =>
    cases p with
    | none => exact h
    | some a => cases h
  | succ fuel ih =>
    cases p with
    | none => exact h
    | some a =>
      dsimp only at h ⊢
      unfold Heap.rebalance at h ⊢
      obtain ⟨right, hright, h⟩ := Run.bind_eq_ok.1 h
      obtain ⟨n, hn, h⟩ := Run.bind_eq_ok.1 h
      rw [hright, Run.bind_ok, hn, Run.bind_ok]
      dsimp only at h ⊢
      obtain ⟨s₁, hs₁, h⟩ := Run.bind_eq_ok.1 h
      rw [hs₁, Run.bind_ok]
      split_ifs at h ⊢
      · obtain ⟨s₂, hs₂, h⟩ := Run.bind_eq_ok.1 h
        obtain ⟨⟨s₃, b⟩, hs₃, h⟩ := Run.bind_eq_ok.1 h
        obtain ⟨m, hm, h⟩ := Run.bind_eq_ok.1 h
        rw [hs₂, Run.bind_ok, hs₃, Run.bind_ok]
        dsimp only at hm h ⊢
        rw [hm, Run.bind_ok]
        split_ifs at h ⊢
        · exact ih _ _ _ h
        · exact ih _ _ _ h
        · exact h
      · exact ih _ _ _ h
      · exact ih _ _ _ h
      · exact h

lemma descend_steady (s : Heap K V) (a : ℕ) : Run.Steady fun fuel => s.descend cmp k fuel a := by
  intro fuel x h
  induction fuel generalizing a with
  | zero => cases h
  | succ fuel ih =>
    dsimp only at h ⊢
    unfold Heap.descend at h ⊢
    obtain ⟨n, hn, h⟩ := Run.bind_eq_ok.1 h
    rw [hn, Run.bind_ok]
    dsimp only at h ⊢
    generalize n.left = left at h ⊢
    generalize n.right = right at h ⊢
    cases left with
    | none =>
      cases right with
      | none => exact h
      | some r =>
        dsimp only at h ⊢
        split_ifs at h ⊢
        · exact ih r h
        · exact h
    | some l =>
      cases right with
      | none =>
        dsimp only at h ⊢
        split_ifs at h ⊢
        · exact ih l h
        · exact h
      | some r =>
        dsimp only at h ⊢
        split_ifs at h ⊢
        · exact ih l h
        · exact ih r h
        · exact h

lemma skipEqual_steady (s : Heap K V) (a : ℕ) (p : Option ℕ) :
    Run.Steady fun fuel => s.skipEqual cmp k fuel a p := by
  intro fuel x h
  induction fuel generalizing a p with
  | zero =>
    cases p with
    | none => exact h
    | some b => cases h
  | succ fuel ih =>
    cases p with
    | none => exact h
    | some b =>
      dsimp only at h ⊢
      unfold Heap.skipEqual at h ⊢
      obtain ⟨n, hn, h⟩ := Run.bind_eq_ok.1 h
      rw [hn, Run.bind_ok]
      split_ifs at h ⊢
      · exact ih b n.left h
      · exact h

lemma skipLess_steady (s : Heap K V) (p : Option ℕ) :
    Run.Steady fun fuel => s.skipLess cmp k fuel p := by
  intro fuel x h
  induction fuel generalizing p with
  | zero =>
    cases p with
    | none => exact h
    | some b => cases h
  | succ fuel ih =>
    cases p with
    | none => exact h
    | some b =>
      dsimp only at h ⊢
      unfold Heap.skipLess at h ⊢
      obtain ⟨n, hn, h⟩ := Run.bind_eq_ok.1 h
      rw [hn, Run.bind_ok]
      split_ifs at h ⊢
      · exact ih n.right h
      · exact h

/-- Both fuels may grow. -/
lemma firstEqual_steady (s : Heap K V) {fuel rounds : ℕ} {a x : ℕ} {p : Option ℕ}
    (h : s.firstEqual cmp k fuel rounds a p = .ok x) :
    s.firstEqual cmp k (fuel + 1) (rounds + 1) a p = .ok x := by
  induction rounds generalizing a p with
  | zero =>
    cases p with
    | none => exact h
    | some b => cases h
  | succ rounds ih =>
    cases p with
    | none => exact h
    | some b =>
      unfold Heap.firstEqual at h ⊢
      obtain ⟨⟨a', p'⟩, hequal, h⟩ := Run.bind_eq_ok.1 h
      obtain ⟨p'', hless, h⟩ := Run.bind_eq_ok.1 h
      exact Run.bind_eq_ok.2 ⟨_, skipEqual_steady s a (some b) fuel _ hequal,
        Run.bind_eq_ok.2 ⟨_, skipLess_steady s p' fuel _ hless, ih h⟩⟩

lemma find_steady (s : Heap K V) (a : ℕ) : Run.Steady fun fuel => s.find cmp fuel a k := by
  refine (descend_steady s a).bind fun r => ?_
  obtain ⟨a, eq⟩ := r
  dsimp only
  split_ifs
  · exact (Run.steady_const _).bind fun n fuel x h => firstEqual_steady s h
  · exact Run.steady_const _

lemma attach_steady (d : Bool) (s : Heap K V) (res node : ℕ) :
    Run.Steady fun fuel => s.attach fuel d res node := by
  refine Run.Steady.bind ?_ fun s => (rebalance_steady s _ _ _).bind fun r => Run.steady_const _
  exact (assign_steady s _ _).bind fun s => Run.steady_const _

lemma insertNode_steady {fuel depth : ℕ} {s s' : Heap K V} {this node : ℕ}
    (h : s.insertNode cmp fuel depth this node = .ok s') :
    s.insertNode cmp (fuel + 1) (depth + 1) this node = .ok s' := by
  induction depth generalizing this with
  | zero => cases h
  | succ depth ih =>
    unfold Heap.insertNode at h ⊢
    obtain ⟨n, hn, h⟩ := Run.bind_eq_ok.1 h
    obtain ⟨res, hres, h⟩ := Run.bind_eq_ok.1 h
    obtain ⟨r, hr, h⟩ := Run.bind_eq_ok.1 h
    rw [hn, Run.bind_ok]
    refine Run.bind_eq_ok.2 ⟨res, find_steady s this fuel res hres, ?_⟩
    rw [hr, Run.bind_ok]
    split_ifs at h ⊢
    · exact attach_steady false s res node fuel s' h
    · cases hgt : cmp r.x n.x with
      | true =>
        rw [hgt] at h
        exact attach_steady true s res node fuel s' h
      | false =>
        rw [hgt] at h
        cases hright : r.right with
        | none =>
          rw [hright] at h
          exact attach_steady true s res node fuel s' h
        | some b =>
          rw [hright] at h
          exact ih h

lemma insert_steady (s : Heap K V) (v : V) : Run.Steady fun fuel => s.insert cmp fuel k v := by
  unfold Heap.insert
  cases s.ptr with
  | none => exact Run.steady_const _
  | some top =>
    have hnode : Run.Steady fun fuel => (s.alloc ⟨none, false, 0, k, v, none, none⟩).1.insertNode cmp
        fuel fuel top s.fresh := fun fuel s' h => insertNode_steady h
    exact hnode.bind fun s => Run.steady_const _

end fuel

/-! ### Rounds down a path -/

section down
variable {s : Heap K V} {t : Tree K V} {q : Option ℕ} {b : Bool} {fuel : ℕ}

/-- One memory holds one tree at an address. -/
lemma Owns.unique {u : Tree K V} {q' : Option ℕ} {b' : Bool} (ht : Owns s t q b)
    (hu : Owns s u q' b') (haddr : addr t = addr u) : t = u := by
  induction t generalizing u q b q' b' with
  | nil => exact (addr_eq_none.1 haddr.symm).symm
  | node e d l r ihl ihr =>
    cases u with
    | nil => cases haddr
    | node e' d' l' r' =>
      have he : e.1 = e'.1 := Option.some.inj haddr
      have hcell := ht.1.symm.trans (he ▸ hu.1)
      simp only [Option.some.injEq, Node.mk.injEq] at hcell
      obtain ⟨-, -, rfl, hx, hv, hl, hr⟩ := hcell
      rw [ihl ht.2.1 hu.2.1 hl, ihr ht.2.2 hu.2.2 hr, show e = e' from Prod.ext he (Prod.ext hx hv)]

end down

/-! ### The operations -/

section operations
variable {s : Heap K V} {c : List (Frame (ℕ × K × V))} {t l r : Tree K V} {e : ℕ × K × V} {h : ℤ}
  {fuel : ℕ}

end operations
end Btree
end CoreCommon
