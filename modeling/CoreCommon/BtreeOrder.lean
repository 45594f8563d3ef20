import CoreCommon.BtreeRuns

/-! Where `Root::find` and `Root::insert_node` end up in the order of the tree, among equal keys
too. -/
namespace CoreCommon.Btree
open AvlTree
variable {K V : Type}

namespace Heap

/-- `Root::find`: null when the tree is empty. -/
def rootFind (cmp : K → K → Bool) (fuel : ℕ) (s : Heap K V) (fx : K) : Run (Option ℕ) :=
  match s.ptr with
  | some top => do
    let a ← s.find cmp fuel top fx
    .ok (some a)
  | none => .ok none

/-- `Root::insert_node` -/
def rootInsertNode (cmp : K → K → Bool) (fuel : ℕ) (s : Heap K V) (node : ℕ) : Run (Heap K V) :=
  match s.ptr with
  | some top => do
    let s ← s.modify node (Node.setRoot false)
    s.insertNode cmp fuel fuel top node
  | none => do
    let s ← s.modify node (Node.setRoot true)
    let s ← s.modify node (Node.setParent none)
    .ok (s.withPtr (some node))

end Heap

variable {cmp : K → K → Bool} {s : Heap K V} {c : List (Frame (ℕ × K × V))} {t : Tree K V} {k : K}
  {fuel : ℕ}

/-! ### Finding -/

def Equivalent (cmp : K → K → Bool) (k k' : K) : Prop := cmp k k' = false ∧ cmp k' k = false

/-- The first node in order whose key is equivalent to `k`. -/
def FirstEquivalent (cmp : K → K → Bool) (k : K) (t : Tree K V) (e : ℕ × K × V) : Prop :=
  ∃ l r, t.inorder = l ++ e :: r ∧ Equivalent cmp k (keyOf e) ∧
    ∀ x ∈ l, ¬ Equivalent cmp k (keyOf x)

/-- The last node before the position of `k` or the first one after it, without a child there. -/
def Adjacent (cmp : K → K → Bool) (k : K) (s : Heap K V) (t : Tree K V) (e : ℕ × K × V) : Prop :=
  ∃ l r n, t.inorder = l ++ e :: r ∧ s.cell e.1 = some n ∧
    ((∀ x ∈ l ++ [e], cmp (keyOf x) k = true) ∧ (∀ x ∈ r, cmp k (keyOf x) = true) ∧
        n.right = none ∨
      (∀ x ∈ l, cmp (keyOf x) k = true) ∧ (∀ x ∈ e :: r, cmp k (keyOf x) = true) ∧ n.left = none)

lemma not_equivalent_of_less {x : ℕ × K × V} (h : cmp (keyOf x) k = true) :
    ¬ Equivalent cmp k (keyOf x) := fun heq => Bool.false_ne_true (heq.2.symm.trans h)

lemma not_equivalent_of_greater {x : ℕ × K × V} (h : cmp k (keyOf x) = true) :
    ¬ Equivalent cmp k (keyOf x) := fun heq => Bool.false_ne_true (heq.1.symm.trans h)

lemma Adjacent.not_equivalent {e : ℕ × K × V} (h : Adjacent cmp k s t e) :
    ∀ x ∈ t.inorder, ¬ Equivalent cmp k (keyOf x) := by
  obtain ⟨l, r, n, ht, -, ⟨hless, hgreater, -⟩ | ⟨hless, hgreater, -⟩⟩ := h
  · rw [ht, ← List.singleton_append, ← List.append_assoc]
    intro x hx
    rcases List.mem_append.1 hx with hx | hx
    · exact not_equivalent_of_less (hless x hx)
    · exact not_equivalent_of_greater (hgreater x hx)
  · rw [ht]
    intro x hx
    rcases List.mem_append.1 hx with hx | hx
    · exact not_equivalent_of_less (hless x hx)
    · exact not_equivalent_of_greater (hgreater x hx)

/-- `find` ends at the first equal node or beside the position of the key. -/
lemma find_place (hcmp : StrictWeak cmp) (hz : Zip s [] t) {a : ℕ} (ha : addr t = some a)
    (hfuel : t.inorder.length ≤ fuel) (hsorted : Sorted cmp keyOf t.inorder) :
    ∃ e, s.find cmp fuel a k = .ok e.1 ∧ (FirstEquivalent cmp k t e ∨ Adjacent cmp k s t e) := by
  obtain ⟨c, e, h, l, r, hrun, hz', hplug, -, hplace, hleads⟩ :=
    find_ok (k := k) hcmp hz ha hfuel hsorted around_nil
  obtain ⟨hless, hgreater⟩ := hleads apart_nil
  obtain rfl : plug c (.node e h l r) = t := hplug
  have horder : (plug c (.node e h l r)).inorder =
      (before c ++ l.inorder) ++ e :: (r.inorder ++ after c) := by
    rw [inorder_plug, inorder]
    simp
  refine ⟨e, hrun, ?_⟩
  rcases hplace with ⟨hlt, rfl, -⟩ | ⟨hle, -, hnil⟩
  · refine .inr ⟨_, _, _, horder, hz'.down.1, .inr ⟨hless, fun x hx => ?_, rfl⟩⟩
    rcases List.mem_cons.1 hx with rfl | hx
    · exact hlt
    · exact hgreater (.inl hlt) x hx
  · by_cases hgt : cmp (keyOf e) k = true
    · obtain rfl := hnil hgt
      refine .inr ⟨_, _, _, horder, hz'.down.1, .inl ⟨fun x hx => ?_, hgreater (.inr hgt), rfl⟩⟩
      rcases List.mem_append.1 hx with hx | hx
      · exact hless x hx
      · exact List.mem_singleton.1 hx ▸ hgt
    · exact .inl ⟨_, _, horder, ⟨hle, Bool.eq_false_of_not_eq_true hgt⟩,
        fun x hx => not_equivalent_of_less (hless x hx)⟩

/-- `Root::find` in a tree that is in memory. -/
structure Finds (cmp : K → K → Bool) (s : Heap K V) (t : Tree K V) (fuel : ℕ) (k : K) : Prop where
  empty : t.inorder = [] → s.rootFind cmp fuel k = .ok none
  found : (∃ x ∈ t.inorder, Equivalent cmp k (keyOf x)) →
    ∃ e, s.rootFind cmp fuel k = .ok (some e.1) ∧ FirstEquivalent cmp k t e
  missing : t.inorder ≠ [] → (∀ x ∈ t.inorder, ¬ Equivalent cmp k (keyOf x)) →
    ∃ e, s.rootFind cmp fuel k = .ok (some e.1) ∧ Adjacent cmp k s t e

lemma Avl.finds (hcmp : StrictWeak cmp) (h : Avl cmp s t) (hfuel : s.fresh ≤ fuel) (k : K) :
    Finds cmp s t fuel k := by
  have hptr : s.ptr = addr t := h.zip.up
  cases t with
  | nil =>
    refine ⟨fun _ => ?_, fun hex => ?_, fun hne => absurd rfl hne⟩
    · rw [Heap.rootFind, hptr]
      rfl
    · obtain ⟨x, hx, -⟩ := hex
      cases hx
  | node e d l r =>
    obtain ⟨f, hrun, hf⟩ := find_place (k := k) hcmp h.zip rfl (h.length_le.trans hfuel) h.sorted
    have hfind : s.rootFind cmp fuel k = .ok (some f.1) := by
      rw [Heap.rootFind, hptr]
      dsimp only [addr]
      rw [hrun, Run.bind_ok]
    refine ⟨fun hnil => ?_, fun hex => ?_, fun _ hnone => ?_⟩
    · simp [inorder] at hnil
    · obtain ⟨x, hx, hequiv⟩ := hex
      rcases hf with hf | hf
      · exact ⟨f, hfind, hf⟩
      · exact absurd hequiv (hf.not_equivalent x hx)
    · rcases hf with ⟨l', r', ht, hequiv, -⟩ | hf
      · exact absurd hequiv (hnone f (ht ▸ List.mem_append_right _ List.mem_cons_self))
      · exact ⟨f, hfind, hf⟩

/-! ### Inserting -/

lemma Avl.rootInsertNode_ok (hcmp : StrictWeak cmp) (h : Avl cmp s t) (hfuel : s.fresh ≤ fuel)
    {z : ℕ} {q : Option ℕ} {b : Bool} {v : V} (hz : z ∉ addrs t)
    (hcell : s.cell z = some ⟨q, b, 0, k, v, none, none⟩) :
    ∃ s' t', s.rootInsertNode cmp fuel z = .ok s' ∧ Zip s' [] t' ∧ t'.Balanced ∧
      Sorted cmp keyOf t'.inorder ∧ Inserted cmp z k v t t' := by
  have hptr : s.ptr = addr t := h.zip.up
  unfold Heap.rootInsertNode
  rw [hptr]
  cases t with
  | nil =>
    have hins : Inserted cmp z k v .nil (.node (z, k, v) 0 .nil .nil) :=
      ⟨[], [], rfl, rfl, by simp, by simp⟩
    dsimp only [addr]
    rw [Heap.modify_eq hcell, Run.bind_ok, Heap.modify_eq Heap.cell_withNode_self,
      Run.bind_ok]
    refine ⟨_, .node (z, k, v) 0 .nil .nil, rfl, ⟨⟨?_, trivial, trivial⟩, rfl, ?_⟩,
      by simp [AvlTree.Balanced, height], hins.sorted List.Pairwise.nil, hins⟩
    · exact Heap.cell_withNode_self
    · exact List.nodup_singleton _
  | node e d l r =>
    dsimp only [addr]
    rw [Heap.modify_eq hcell, Run.bind_ok]
    have hz' : Zip (s.withNode z (Node.setRoot false ⟨q, b, 0, k, v, none, none⟩)) []
        (.node e d l r) :=
      ⟨h.zip.down.frame fun y hy => Heap.cell_withNode_of_ne (ne_of_mem_of_not_mem hy hz), hptr,
        h.zip.nodup⟩
    have hlen := h.length_le.trans hfuel
    obtain ⟨s', t', hrun, hzip, hbalanced, hins, -⟩ := insertNode_ok hcmp (c := []) hz' rfl
      Heap.cell_withNode_self hz h.balanced h.sorted around_nil hlen hlen
    exact ⟨s', t', hrun, hzip, hbalanced, hins.sorted h.sorted, hins⟩

/-- In every reached tree `find` completes at the first equal node or beside the position of the
key, and `insert_node` puts a new node where its key belongs; the other nodes keep their order. -/
theorem find_insert_order {nodes : Multiset (ℕ × K × V)} (hcmp : StrictWeak cmp)
    (h : Steps cmp s nodes) :
    ∃ t, Avl cmp s t ∧ (t.inorder : Multiset (ℕ × K × V)) = nodes ∧
      ∀ fuel ≥ s.fresh, (∀ k, Finds cmp s t fuel k) ∧
        ∀ z q b k v, z ∉ addrs t → s.cell z = some ⟨q, b, 0, k, v, none, none⟩ →
          ∃ s' t', s.rootInsertNode cmp fuel z = .ok s' ∧ Zip s' [] t' ∧
            Sorted cmp keyOf t'.inorder ∧ Inserted cmp z k v t t' := by
  obtain ⟨t, ht, hnodes⟩ := h.avl hcmp
  refine ⟨t, ht, hnodes, fun fuel hfuel => ⟨ht.finds hcmp hfuel, fun z q b k v hz hcell => ?_⟩⟩
  obtain ⟨s', t', hrun, hzip, -, hsorted, hins⟩ := ht.rootInsertNode_ok hcmp hfuel hz hcell
  exact ⟨s', t', hrun, hzip, hsorted, hins⟩

/-- Two nodes with one key. -/
theorem find_insert_order_example : ∃ (s : Heap ℕ ℕ) (t : Tree ℕ ℕ),
    Avl (fun a b => decide (a < b)) s t ∧
      (t.inorder : Multiset (ℕ × ℕ × ℕ)) = {(1, 2, 5), (0, 2, 4)} ∧
      ∀ fuel ≥ s.fresh, (∀ k, Finds (fun a b => decide (a < b)) s t fuel k) ∧
        ∀ z q b k v, z ∉ addrs t → s.cell z = some ⟨q, b, 0, k, v, none, none⟩ →
          ∃ s' t', s.rootInsertNode (fun a b => decide (a < b)) fuel z = .ok s' ∧ Zip s' [] t' ∧
            Sorted (fun a b => decide (a < b)) keyOf t'.inorder ∧
            Inserted (fun a b => decide (a < b)) z k v t t' := by
  have h₁ : Steps (fun a b : ℕ => decide (a < b)) _ ((0, 2, 4) ::ₘ 0) :=
    .insert .empty (Nat.le_refl 0) rfl
  have h₂ : Steps (fun a b : ℕ => decide (a < b)) _ ((1, 2, 5) ::ₘ (0, 2, 4) ::ₘ 0) :=
    .insert h₁ (Nat.le_refl 1) rfl
  exact ⟨_, find_insert_order strictWeak_lt h₂⟩

/-- In the empty tree no key is equivalent, and there is no node to return. -/
theorem find_empty : Steps (fun a b => decide (a < b)) (Heap.empty : Heap ℕ ℕ) 0 ∧
    ∀ fuel a, (Heap.empty : Heap ℕ ℕ).rootFind (fun a b => decide (a < b)) fuel 7 ≠ .ok (some a) :=
  ⟨.empty, fun _ _ h => by cases h⟩

end CoreCommon.Btree
