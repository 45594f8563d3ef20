import CoreCommon.BtreeBalance
import CoreCommon.BtreeIterator

/-! Draining a tree: `consume` takes out the node that an iterator is at and steps on. -/
namespace CoreCommon.Btree
open AvlTree
variable {K V : Type}

namespace Heap

/-- `if (ptr) { ptr->parent = ptr_p; ptr->root = root_p; }` -/
def rehang (s : Heap K V) (ptr parent : Option ℕ) (root : Bool) : Run (Heap K V) :=
  match ptr with
  | some a => do
    let s ← s.modify a (Node.setParent parent)
    s.modify a (Node.setRoot root)
  | none => .ok s

/-- `Iterator::consume`: the node that the returned `std::unique_ptr` owns. -/
def consume (fuel : ℕ) (s : Heap K V) (it : Iterator) : Run (Heap K V × Iterator × ℕ) := do
  let current ← deref it.current
  let ptr ← s.parentPtr current
  let n ← s.node current
  let it ← s.next fuel it
  let p ← deref (← s.load ptr)
  let np ← s.node p
  let s ← (if np.left.isSome then s.assign fuel (.child false p) none else .ok s)
  let ret ← deref (← s.load ptr)
  let s ← s.store ptr none
  let s ← s.swap ptr (.child true ret)
  let s ← s.rehang (← s.load ptr) n.parent n.root
  let s ← s.modify ret (Node.setHDiff 0)
  .ok (s, it, ret)

/-- Calls of `consume` until the iterator is at its end, and the nodes they return. -/
def drain (fuel : ℕ) : ℕ → Heap K V → Iterator → Run (Heap K V × List ℕ)
  | 0, _, _ => .error .diverges
  | rounds + 1, s, it =>
    if it.current = it.stop then .ok (s, [])
    else do
      let (s, it, ret) ← s.consume fuel it
      let (s, l) ← s.drain fuel rounds it
      .ok (s, ret :: l)

end Heap

variable {s s' : Heap K V} {c : List (Frame (ℕ × K × V))} {t r : Tree K V} {e : ℕ × K × V} {h : ℤ}
  {fuel : ℕ} {q : Option ℕ} {b : Bool}

lemma Owns.rehang_ok (ht : Owns s t q b) (hnd : (addrs t).Nodup) (q' : Option ℕ) (b' : Bool) :
    ∃ s', s.rehang (addr t) q' b' = .ok s' ∧ Owns s' t q' b' ∧ s'.ptr = s.ptr ∧
      Local (addrs t) s s' := by
  cases t with
  | nil => exact ⟨s, rfl, trivial, rfl, rfl, fun _ _ => rfl⟩
  | node e h l r =>
    set n : Node K V := ⟨q, b, h, e.2.1, e.2.2, addr l, addr r⟩
    have hrun : s.rehang (addr (.node e h l r)) q' b' =
        .ok (s.withNode e.1 ((n.setParent q').setRoot b')) := by
      dsimp only [addr, Heap.rehang]
      rw [Heap.modify_eq ht.1, Run.bind_ok, Heap.modify_withNode]
    have hcell : ∀ y, y ≠ e.1 → (s.withNode e.1 ((n.setParent q').setRoot b')).cell y = s.cell y :=
      fun y hy => Heap.cell_withNode_of_ne hy
    refine ⟨_, hrun, ht.hang hnd ?_ fun y _ hne => hcell y fun heq => hne (congrArg some heq.symm),
      rfl, rfl, fun y hy => hcell y (ne_of_mem_of_not_mem (mem_addrs_of_addr rfl) hy).symm⟩
    rintro _ m ⟨⟩ hm
    obtain rfl := Option.some.inj (ht.1.symm.trans hm)
    exact Heap.cell_withNode_self

/-- The cell of a node that has been taken out. -/
def Out (s : Heap K V) (e : ℕ × K × V) : Prop :=
  ∃ q b, s.cell e.1 = some ⟨q, b, 0, e.2.1, e.2.2, none, none⟩

/-- The links after the first node has been taken out. -/
lemma Zip.release_ok (hz : Zip s c (.node e h .nil r)) :
    ∃ s', (do
        let s ← s.store (slotOf c) none
        let s ← s.swap (slotOf c) (.child true e.1)
        let s ← s.rehang (← s.load (slotOf c)) (upper c) c.isEmpty
        s.modify e.1 (Node.setHDiff 0)) = .ok s' ∧ Zip s' c r ∧ Out s' e ∧
      Local (addrs (plug c (.node e h .nil r))) s s' := by
  obtain ⟨he, -, hr⟩ := hz.down
  have hnd := hz.nodup
  rw [addrs_node] at hnd
  obtain ⟨⟨her, hndr⟩, hndc, hdisj⟩ : (e.1 ∉ addrs r ∧ (addrs r).Nodup) ∧ (addrsUp c).Nodup ∧
      ∀ x ∈ e.1 :: addrs r, ∀ y ∈ addrsUp c, x ≠ y := by
    have hnd : (e.1 :: addrs r ++ addrsUp c).Nodup := hnd
    rwa [List.nodup_append, List.nodup_cons] at hnd
  have hec : e.1 ∉ addrsUp c := fun hmem => hdisj _ List.mem_cons_self _ hmem rfl
  have hrc : ∀ y ∈ addrs r, y ∉ addrsUp c := fun y hy hmem =>
    hdisj y (List.mem_cons_of_mem _ hy) y hmem rfl
  set n : Node K V := ⟨upper c, c.isEmpty, h, e.2.1, e.2.2, none, none⟩ with hn
  -- the right subtree in the link above, the node without children
  have hup₁ : OwnsUp (s.point c none) c none := hz.up.point hndc
  have he₁ : (s.point c none).cell e.1 = _ := (cell_point hec).trans he
  set s₂ := (s.point c (addr r)).withNode e.1 n with hs₂
  have hswap : (s.point c none).swap (slotOf c) (.child true e.1) = .ok s₂ := by
    unfold Heap.swap
    rw [hup₁.load_slot, Run.bind_ok, Heap.load_child_eq he₁, Run.bind_ok, hup₁.store_slot,
      Run.bind_ok, point_point, Heap.store_child_eq ((cell_point hec).trans he)]
    rfl
  have hup₂ : OwnsUp s₂ c (addr r) := (hz.up.point hndc).withNode hec n
  have hr₂ : Owns s₂ r (some e.1) false := hr.frame fun y hy => by
    rw [hs₂, Heap.cell_withNode, if_neg (ne_of_mem_of_not_mem hy her), cell_point (hrc y hy)]
  obtain ⟨s₃, hrehang, hr₃, hptr₃, hlocal₃⟩ := hr₂.rehang_ok hndr (upper c) c.isEmpty
  have he₃ : s₃.cell e.1 = some n :=
    (hlocal₃.cell_eq _ her).trans Heap.cell_withNode_self
  have hout : ∀ y, y ≠ e.1 → (s₃.withNode e.1 (n.setHDiff 0)).cell y = s₃.cell y := fun y hy =>
    Heap.cell_withNode_of_ne hy
  refine ⟨s₃.withNode e.1 (n.setHDiff 0), ?_, ⟨?_, ?_, ?_⟩,
    ⟨upper c, c.isEmpty, Heap.cell_withNode_self⟩, ?_, fun y hy => ?_⟩
  · rw [hz.up.store_slot, Run.bind_ok, hswap, Run.bind_ok, hup₂.load_slot, Run.bind_ok, hrehang,
      Run.bind_ok, Heap.modify_eq he₃]
  · exact hr₃.frame fun y hy => hout y (ne_of_mem_of_not_mem hy her)
  · exact (hup₂.frame hptr₃ fun y hy => hlocal₃.cell_eq y fun hmem => hrc y hmem hy).withNode hec _
  · exact List.nodup_append.2 ⟨hndr, hndc, fun x hx => hdisj x (List.mem_cons_of_mem _ hx)⟩
  · exact hlocal₃.fresh_eq.trans fresh_point
  · rw [← mem_around] at hy
    simp only [around, addrs_node, List.mem_append, List.mem_cons, not_or] at hy
    rw [hout y hy.1.2.1, hlocal₃.cell_eq y hy.1.2.2, hs₂, Heap.cell_withNode, if_neg hy.1.2.1,
      cell_point hy.2]

/-! ### Calls of `consume` -/

/-- The iterator is at the first node of the tree that is left. -/
structure Draining (s : Heap K V) (it : Iterator) (t : Tree K V) : Prop where
  zip : Zip s [] t
  stop : it.stop = none
  current : it.current = (addrs t).head?

lemma Draining.current_eq_stop {it : Iterator} (hd : Draining s it t) :
    it.current = it.stop ↔ t = .nil := by
  rw [hd.current, hd.stop, List.head?_eq_none_iff, addrs, List.map_eq_nil_iff]
  refine ⟨fun hnil => ?_, fun hnil => by rw [hnil]; rfl⟩
  cases t with
  | nil => rfl
  | node e h l r => simp [inorder] at hnil

lemma exists_first (hne : t ≠ .nil) :
    ∃ c e h r, t = plug c (.node e h .nil r) ∧ before c = [] := by
  obtain ⟨e, he⟩ : ∃ e, t.inorder[0]? = some e := by
    cases t with
    | nil => exact absurd rfl hne
    | node e h l r => exact ⟨_, List.getElem?_eq_getElem (by simp [inorder])⟩
  obtain ⟨c, h, l, r, rfl, hlen⟩ := exists_focus_at he
  have hl : l = .nil := by
    cases l with
    | nil => rfl
    | node e' h' l' r' => simp [inorder] at hlen
  subst hl
  exact ⟨c, e, h, r, rfl, List.length_eq_zero_iff.1 (Nat.add_eq_zero_iff.1 hlen).1⟩

/-- One call takes the first node out, with no children and balance factor 0. -/
lemma Draining.consume_ok {it : Iterator} (hd : Draining s it t) (hne : t ≠ .nil)
    (hfuel : t.inorder.length ≤ fuel) :
    ∃ s' it' t' e, s.consume fuel it = .ok (s', it', e.1) ∧ Draining s' it' t' ∧
      t.inorder = e :: t'.inorder ∧ Out s' e ∧ Local (addrs t) s s' := by
  obtain ⟨c, e, h, r, rfl, hbefore⟩ := exists_first hne
  have hz : Zip s c (.node e h .nil r) := zip_plug.1 hd.zip
  have horder : (plug c (.node e h .nil r)).inorder = e :: (plug c r).inorder := by
    rw [inorder_plug, inorder_plug, hbefore]
    rfl
  have haddrs : addrs (plug c (.node e h .nil r)) = e.1 :: addrs (plug c r) := by
    rw [addrs, horder]
    rfl
  have hcurrent : it.current = some e.1 := by rw [hd.current, haddrs]; rfl
  have hnext : s.next fuel it = .ok { it with current := (addrs (plug c r)).head? } := by
    have hmove := (hd.zip.move_at hfuel (i := 0) (by rw [horder]; rfl)).1
    rw [haddrs, List.getElem?_cons_succ, ← List.head?_eq_getElem?, upper, Option.or_none] at hmove
    rw [Heap.next, hcurrent, hd.stop, if_neg (Option.some_ne_none _), deref_some, Run.bind_ok, hmove,
      Run.bind_ok]
  obtain ⟨s', hrun, hz', hout, hlocal⟩ := hz.release_ok
  refine ⟨s', { it with current := (addrs (plug c r)).head? }, plug c r, e, ?_,
    ⟨zip_plug.2 hz', hd.stop, rfl⟩, horder, hout, hlocal⟩
  simp only [Run.bind_eq_ok] at hrun
  obtain ⟨s₁, hstore, s₂, hswap, p, hload, s₃, hrehang, hdone⟩ := hrun
  have htop : s.load (slotOf c) = .ok (some e.1) := hz.up.load_slot
  obtain ⟨n, hn, hparent, hroot, hleft⟩ : ∃ n, s.cell e.1 = some n ∧ n.parent = upper c ∧
      n.root = c.isEmpty ∧ n.left.isSome = false := ⟨_, hz.down.1, rfl, rfl, rfl⟩
  rw [← hparent, ← hroot] at hrehang
  rw [Heap.consume, hcurrent, deref_some, Run.bind_ok, hz.parentPtr_ok rfl, Run.bind_ok,
    Heap.node_eq hn, Run.bind_ok, hnext, Run.bind_ok, htop, Run.bind_ok, deref_some, Run.bind_ok,
    Heap.node_eq hn, Run.bind_ok, hleft, if_neg Bool.false_ne_true, Run.bind_ok, htop, Run.bind_ok,
    deref_some, Run.bind_ok, hstore, Run.bind_ok, hswap, Run.bind_ok, hload, Run.bind_ok, hrehang,
    Run.bind_ok, hdone, Run.bind_ok]

/-- Calls of `consume` one after the other while the iterator is not at its end. -/
inductive Consumed (fuel : ℕ) (s : Heap K V) (it : Iterator) :
    Heap K V → Iterator → List ℕ → Prop
  | start : Consumed fuel s it s it []
  | call {s₁ it₁ l s₂ it₂ a} (hcalls : Consumed fuel s it s₁ it₁ l) (hne : it₁.current ≠ it₁.stop)
      (hcall : s₁.consume fuel it₁ = .ok (s₂, it₂, a)) : Consumed fuel s it s₂ it₂ (l ++ [a])

/-- The labels of `l` have been taken out of `t`, which leaves `t₁`. -/
structure Drained (s : Heap K V) (t : Tree K V) (s₁ : Heap K V) (t₁ : Tree K V)
    (l : List (ℕ × K × V)) : Prop where
  order : t.inorder = l ++ t₁.inorder
  out : ∀ e ∈ l, Out s₁ e
  frame : Local (addrs t) s s₁

lemma Drained.call {s₁ s₂ : Heap K V} {t₁ t₂ : Tree K V} {l : List (ℕ × K × V)}
    (hd : Drained s t s₁ t₁ l) (hnd : (addrs t).Nodup) (horder : t₁.inorder = e :: t₂.inorder)
    (hout : Out s₂ e) (hlocal : Local (addrs t₁) s₁ s₂) : Drained s t s₂ t₂ (l ++ [e]) := by
  have haddrs : addrs t = l.map Prod.fst ++ addrs t₁ := by
    rw [addrs, hd.order, List.map_append]
    rfl
  refine ⟨by rw [hd.order, horder, List.append_assoc]; rfl, fun f hf => ?_,
    hd.frame.trans (hlocal.mono fun y hy => haddrs ▸ List.mem_append_right _ hy)⟩
  rcases List.mem_append.1 hf with hf | hf
  · -- earlier nodes are not in the tree any more
    obtain ⟨q, b, hcell⟩ := hd.out f hf
    rw [haddrs, List.nodup_append] at hnd
    refine ⟨q, b, (hlocal.cell_eq _ fun hmem => ?_).trans hcell⟩
    exact hnd.2.2 _ (List.mem_map_of_mem hf) _ hmem rfl
  · exact List.mem_singleton.1 hf ▸ hout

lemma Consumed.drained {it it₁ : Iterator} {s₁ : Heap K V} {l : List ℕ} (hd : Draining s it t)
    (hfuel : t.inorder.length ≤ fuel) (hcalls : Consumed fuel s it s₁ it₁ l) :
    ∃ t₁ l₁, Draining s₁ it₁ t₁ ∧ Drained s t s₁ t₁ l₁ ∧ l = l₁.map Prod.fst := by
  induction hcalls with
  | start => exact ⟨t, [], hd, ⟨rfl, fun _ hmem => absurd hmem List.not_mem_nil, rfl, fun _ _ => rfl⟩, rfl⟩
  | @call s₁ it₁ l s₂ it₂ a hcalls hne hcall ih =>
    obtain ⟨t₁, l₁, hd₁, hdrained, rfl⟩ := ih
    have hlen := congrArg List.length hdrained.order
    rw [List.length_append] at hlen
    obtain ⟨s', it', t₂, e, hrun, hd₂, horder, hout, hlocal⟩ :=
      hd₁.consume_ok (mt hd₁.current_eq_stop.2 hne) (show _ ≤ fuel by omega)
    obtain ⟨rfl, hrest⟩ := Prod.mk.inj (Except.ok.inj (hcall.symm.trans hrun))
    obtain ⟨rfl, rfl⟩ := Prod.mk.inj hrest
    exact ⟨t₂, l₁ ++ [e], hd₂, hdrained.call (List.nodup_append.1 hd.zip.nodup).1 horder hout hlocal,
      by rw [List.map_append]; rfl⟩

lemma Draining.drain_ok {it : Iterator} {rounds : ℕ} (hd : Draining s it t)
    (hfuel : t.inorder.length ≤ fuel) (hrounds : t.inorder.length < rounds) :
    ∃ s', s.drain fuel rounds it = .ok (s', addrs t) ∧ s'.ptr = none ∧ Drained s t s' .nil t.inorder := by
  induction rounds generalizing s it t with
  | zero => exact absurd hrounds (Nat.not_lt_zero _)
  | succ rounds ih =>
    rw [Heap.drain]
    by_cases hnil : t = .nil
    · subst hnil
      exact ⟨s, if_pos (hd.current_eq_stop.2 rfl), hd.zip.up, rfl,
        fun _ hmem => absurd hmem List.not_mem_nil, rfl, fun _ _ => rfl⟩
    · obtain ⟨s₁, it₁, t₁, e, hrun, hd₁, horder, hout, hlocal⟩ := hd.consume_ok hnil hfuel
      have hlen := congrArg List.length horder
      rw [List.length_cons] at hlen
      obtain ⟨s', hrun', hptr, hdrained⟩ := ih hd₁ (by omega) (by omega)
      have haddrs : addrs t = e.1 :: addrs t₁ := by
        rw [addrs, horder]
        rfl
      have hnd := (List.nodup_append.1 hd.zip.nodup).1
      rw [haddrs, List.nodup_cons] at hnd
      refine ⟨s', ?_, hptr, (List.append_nil _).symm, ?_,
        hlocal.trans (hdrained.frame.mono fun y hy => haddrs ▸ List.mem_cons_of_mem _ hy)⟩
      · rw [if_neg (mt hd.current_eq_stop.1 hnil), hrun, Run.bind_ok]
        dsimp only
        rw [hrun', Run.bind_ok, haddrs]
      · rw [horder]
        intro f hf
        rcases List.mem_cons.1 hf with rfl | hf
        · obtain ⟨q, b, hcell⟩ := hout
          exact ⟨q, b, (hdrained.frame.cell_eq _ hnd.1).trans hcell⟩
        · exact hdrained.out f hf

lemma Zip.begin_draining (hz : Zip s [] t) (hfuel : t.inorder.length ≤ fuel) :
    ∃ it, s.rootBegin fuel = .ok it ∧ Draining s it t := by
  have hptr : s.ptr = addr t := hz.up
  rw [Heap.rootBegin, hptr]
  cases ha : addr t with
  | none =>
    obtain rfl := addr_eq_none.1 ha
    exact ⟨_, rfl, hz, rfl, rfl⟩
  | some a =>
    obtain ⟨e, hrun, hfirst⟩ := hz.begin_ok hfuel ha
    dsimp only
    rw [hrun, Run.bind_ok]
    refine ⟨_, rfl, hz, rfl, ?_⟩
    have hcurrent := congrArg Iterator.current hfirst
    rw [position, upper, Option.or_none, ← List.head?_eq_getElem?] at hcurrent
    exact hcurrent.symm

/-- The loop of `consume` from `begin` returns all nodes in order, without children and with
balance factor 0, and leaves no tree; what is left after each call is a well-linked tree of the
other nodes. -/
theorem consume_drains (hz : Zip s [] t) (hfuel : t.inorder.length ≤ fuel) :
    (addrs t).Nodup ∧ ∃ it, s.rootBegin fuel = .ok it ∧
      (∀ rounds > t.inorder.length, ∃ s', s.drain fuel rounds it = .ok (s', addrs t) ∧
        s'.ptr = none ∧ (∀ e ∈ t.inorder, Out s' e) ∧ Local (addrs t) s s') ∧
      ∀ s₁ it₁ l, Consumed fuel s it s₁ it₁ l → ∃ t₁ l₁, Zip s₁ [] t₁ ∧ l = l₁.map Prod.fst ∧
        t.inorder = l₁ ++ t₁.inorder ∧ ∀ e ∈ l₁, Out s₁ e := by
  obtain ⟨it, hbegin, hd⟩ := hz.begin_draining hfuel
  refine ⟨(List.nodup_append.1 hz.nodup).1, it, hbegin, fun rounds hrounds => ?_,
    fun s₁ it₁ l hcalls => ?_⟩
  · obtain ⟨s', hrun, hptr, hdrained⟩ := hd.drain_ok hfuel hrounds
    exact ⟨s', hrun, hptr, hdrained.out, hdrained.frame⟩
  · obtain ⟨t₁, l₁, hd₁, hdrained, hl⟩ := hcalls.drained hd hfuel
    exact ⟨t₁, l₁, hd₁.zip, hl, hdrained.order, hdrained.out⟩

theorem consume_drains_example : (addrs pairTree).Nodup ∧ ∃ it, pairHeap.rootBegin 2 = .ok it ∧
    (∀ rounds > 2, ∃ s', pairHeap.drain 2 rounds it = .ok (s', addrs pairTree) ∧
      s'.ptr = none ∧ (∀ e ∈ pairTree.inorder, Out s' e) ∧ Local (addrs pairTree) pairHeap s') ∧
    ∀ s₁ it₁ l, Consumed 2 pairHeap it s₁ it₁ l → ∃ t₁ l₁, Zip s₁ [] t₁ ∧ l = l₁.map Prod.fst ∧
      pairTree.inorder = l₁ ++ t₁.inorder ∧ ∀ e ∈ l₁, Out s₁ e :=
  consume_drains pairHeap_zip (by decide)

end CoreCommon.Btree
