import CoreCommon.BtreeRemove

/-! Runs of insertions and removals. -/
namespace CoreCommon.Btree
open AvlTree
variable {K V : Type} {cmp : K → K → Bool} {s : Heap K V} {nodes : Multiset (ℕ × K × V)}

/-- Calls on an initially empty root, each with fuel for the nodes there have been, and the
nodes inserted and not removed. -/
inductive Steps (cmp : K → K → Bool) : Heap K V → Multiset (ℕ × K × V) → Prop
  | empty : Steps cmp Heap.empty 0
  | insert {s s' nodes fuel k v a} (h : Steps cmp s nodes) (hfuel : s.fresh ≤ fuel)
      (hcall : s.insert cmp fuel k v = .ok (s', a)) : Steps cmp s' ((a, k, v) ::ₘ nodes)
  | remove {s s' nodes fuel k v a ret} (h : Steps cmp s ((a, k, v) ::ₘ nodes))
      (hfuel : s.fresh ≤ fuel) (hcall : s.remove fuel a = .ok (s', ret)) : Steps cmp s' nodes

lemma Steps.avl (hcmp : StrictWeak cmp) (h : Steps cmp s nodes) :
    ∃ t, Avl cmp s t ∧ (t.inorder : Multiset (ℕ × K × V)) = nodes := by
  induction h with
  | empty =>
    exact ⟨.nil, ⟨⟨trivial, rfl, List.nodup_nil⟩, trivial, List.Pairwise.nil, nofun⟩, rfl⟩
  | @insert s s' nodes fuel k v a h hfuel hcall ih =>
    obtain ⟨t, ht, hnodes⟩ := ih
    obtain ⟨s₁, t', hrun, ht', hins, -, -⟩ := ht.insert_ok hcmp hfuel k v
    obtain ⟨rfl, rfl⟩ := Prod.mk.inj (Except.ok.inj (hcall.symm.trans hrun))
    refine ⟨t', ht', (Multiset.coe_eq_coe.2 hins.perm).trans ?_⟩
    rw [← Multiset.cons_coe, hnodes]
  | @remove s s' nodes fuel k v a ret h hfuel hcall ih =>
    obtain ⟨t, ht, hnodes⟩ := ih
    have hmem : (a, k, v) ∈ t.inorder := by
      rw [← Multiset.mem_coe, hnodes]
      exact Multiset.mem_cons_self _ _
    obtain ⟨s₁, t', hrun, ht', ⟨l, r, hl, hr⟩, -, -⟩ := ht.remove_ok hmem hfuel
    obtain ⟨rfl, -⟩ := Prod.mk.inj (Except.ok.inj (hcall.symm.trans hrun))
    refine ⟨t', ht', ?_⟩
    rw [hl, Multiset.coe_eq_coe.2 List.perm_middle, ← Multiset.cons_coe,
      Multiset.cons_inj_right] at hnodes
    rw [hr, hnodes]

/-- After every run a sorted and balanced tree with right links is in memory, of exactly the
nodes inserted and not removed; the next call completes, and `remove` returns the node it was
called on, which is out of the tree and has no children. -/
theorem steps_avl (hcmp : StrictWeak cmp) (h : Steps cmp s nodes) :
    (∃ t, Avl cmp s t ∧ (t.inorder : Multiset (ℕ × K × V)) = nodes) ∧
    (∀ fuel ≥ s.fresh, ∀ k v, ∃ s', s.insert cmp fuel k v = .ok (s', s.fresh)) ∧
    ∀ fuel ≥ s.fresh, ∀ a k v, (a, k, v) ∈ nodes → ∃ s' t', s.remove fuel a = .ok (s', some a) ∧
      Avl cmp s' t' ∧ a ∉ addrs t' ∧ ∃ n, s'.cell a = some n ∧ n.left = none ∧ n.right = none := by
  obtain ⟨t, ht, hnodes⟩ := h.avl hcmp
  refine ⟨⟨t, ht, hnodes⟩, fun fuel hfuel k v => ?_, fun fuel hfuel a k v hmem => ?_⟩
  · obtain ⟨s', t', hrun, -⟩ := ht.insert_ok hcmp hfuel k v
    exact ⟨s', hrun⟩
  · rw [← hnodes, Multiset.mem_coe] at hmem
    obtain ⟨s', t', hrun, ht', ⟨l, r, hl, hr⟩, hcell, -⟩ := ht.remove_ok hmem hfuel
    refine ⟨s', t', hrun, ht', fun hin => ?_, hcell⟩
    have hnd : (addrs t).Nodup := (List.nodup_append.1 ht.zip.nodup).1
    rw [addrs, hl, List.map_append, List.map_cons, List.perm_middle.nodup_iff,
      List.nodup_cons, ← List.map_append, ← hr] at hnd
    exact hnd.1 hin

lemma strictWeak_lt : StrictWeak fun a b : ℕ => decide (a < b) where
  irrefl := by simp
  trans := by
    intro x y z hxy hyz
    simp only [decide_eq_true_eq] at hxy hyz ⊢
    omega
  incomp := by
    intro x y z hxy hyx hyz hzy
    simp only [decide_eq_false_iff_not] at hxy hyx hyz hzy ⊢
    omega

/-- Two insertions and a removal. -/
theorem steps_avl_example : ∃ s : Heap ℕ ℕ,
    (∃ t, Avl (fun a b => decide (a < b)) s t ∧ (t.inorder : Multiset (ℕ × ℕ × ℕ)) = {(0, 2, 4)}) ∧
    (∀ fuel ≥ s.fresh, ∀ k v, ∃ s', s.insert (fun a b => decide (a < b)) fuel k v =
      .ok (s', s.fresh)) ∧
    ∀ fuel ≥ s.fresh, ∀ a k v, (a, k, v) ∈ ({(0, 2, 4)} : Multiset (ℕ × ℕ × ℕ)) →
      ∃ s' t', s.remove fuel a = .ok (s', some a) ∧ Avl (fun a b => decide (a < b)) s' t' ∧
        a ∉ addrs t' ∧ ∃ n, s'.cell a = some n ∧ n.left = none ∧ n.right = none := by
  have h₁ : Steps (fun a b : ℕ => decide (a < b)) _ ((0, 2, 4) ::ₘ 0) :=
    .insert .empty (Nat.le_refl 0) rfl
  have h₂ : Steps (fun a b : ℕ => decide (a < b)) _ ((1, 3, 5) ::ₘ (0, 2, 4) ::ₘ 0) :=
    .insert h₁ (Nat.le_refl 1) rfl
  exact ⟨_, steps_avl strictWeak_lt (.remove h₂ (Nat.le_refl 2) rfl)⟩

end CoreCommon.Btree
