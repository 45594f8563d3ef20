import CoreCommon.BtreeInsert

/-! Removing a node. -/
namespace CoreCommon.Btree
open AvlTree
variable {K V : Type} {s : Heap K V} {c : List (Frame (ℕ × K × V))} {fuel : ℕ}

/-! ### At most one child -/

section few
variable {u : Tree K V} {a : ℕ} {n : Node K V}

lemma OwnsUp.unlink_ok (hc : OwnsUp s c (some a)) (hu : Owns s u (upper c) c.isEmpty)
    (hn : s.cell a = some n) (hparent : n.parent = upper c) (hac : a ∉ addrsUp c)
    (hnd : (addrs u ++ addrsUp c).Nodup) (hbalanced : u.Balanced)
    (hup : BalancedUp c (u.height + 1)) (hfuel : c.length ≤ fuel) :
    ∃ s', s.unlink fuel a (slotOf c) (addr u) = .ok (s', some a) ∧ Rebalanced c u s s' := by
  have hnd' := List.nodup_append.1 hnd
  have hcell : ∀ y, y ∉ addrsUp c → (s.point c (addr u)).cell y = s.cell y := fun y hy =>
    cell_point hy
  have hz : Zip (s.point c (addr u)) c u := by
    refine ⟨hu.frame fun y hy => hcell y fun hmem => hnd'.2.2 y hy y hmem rfl,
      hc.point hnd'.2.1, hnd⟩
  have hlocal : Local (around u c) s (s.point c (addr u)) :=
    ⟨fresh_point, fun y hy => hcell y fun hmem => hy (List.mem_append_right _ hmem)⟩
  obtain ⟨s', r, hrun, t', hz', hbalanced', horder, hlocal'⟩ :=
    hz.rebalance_ok true hbalanced hup (Int.add_sub_cancel _ _).symm hfuel
  refine ⟨s', ?_, t', hz', hbalanced', horder, hlocal.trans hlocal'⟩
  unfold Heap.unlink
  rw [hc.load_slot, Run.bind_ok, hc.store_slot, Run.bind_ok,
    Heap.node_eq ((hcell a hac).trans hn), Run.bind_ok, hparent]
  cases c with
  | nil =>
    have hsame : s.point [] (addr u) = s' := by
      cases fuel <;> exact (Prod.mk.inj (Except.ok.inj hrun)).1
    rw [← hsame]
    rfl
  | cons f c =>
    have hside : decide (Slot.child false f.label.1 = slotOf (f :: c)) = (true ^^ f.d) := by
      rw [slotOf]
      cases f.d <;> simp
    dsimp only [upper]
    rw [hside]
    have hrun' : (s.point (f :: c) (addr u)).rebalance fuel (some f.label.1) (true ^^ f.d) true =
        .ok (s', r) := hrun
    rw [hrun', Run.bind_ok]

lemma Zip.takeChild_ok {d : Bool} {e : ℕ × K × V} {h : ℤ} (hz : Zip s c (branch d e h u .nil))
    (ha : addr u = some a) :
    ∃ s', s.takeChild d e.1 a = .ok s' ∧ Owns s' u (upper c) c.isEmpty ∧
      OwnsUp s' c (some e.1) ∧
      s'.cell e.1 = some (Node.of d (upper c) c.isEmpty e h none none) ∧
      Local (e.1 :: addrs u) s s' := by
  obtain ⟨hdown, hc, hnd⟩ := hz
  obtain ⟨he, hu, -⟩ := owns_branch.1 hdown
  rw [addr_branch] at hc
  simp only [List.nodup_append, nodup_addrs_branch, mem_addrs_branch] at hnd
  obtain ⟨⟨⟨heu, -⟩, hndu, -⟩, hndc, hup⟩ := hnd
  have hamem := mem_addrs_of_addr ha
  have hae : ¬ a = e.1 := ne_of_mem_of_not_mem hamem heu
  obtain ⟨m, hm, -, -⟩ := hu.top ha
  set s₁ := s.withNode e.1 (Node.of d (upper c) c.isEmpty e h none (addr .nil)) with hs₁
  have he₁ : s₁.cell e.1 = _ := Heap.cell_withNode_self
  have hm₁ : s₁.cell a = some m := (Heap.cell_withNode_of_ne hae).trans hm
  set s₂ := (s₁.withNode a (m.setParent (upper c))).withNode a
    ((m.setParent (upper c)).setRoot c.isEmpty) with hs₂
  have hcell : ∀ y, y ≠ e.1 → y ≠ a → s₂.cell y = s.cell y := fun y hye hya => by
    simp only [hs₂, hs₁, Heap.cell_withNode, if_neg hye, if_neg hya]
  refine ⟨s₂, ?_, hu.hang hndu ?_ fun y hy hne => ?_, ?_, ?_, rfl, fun y hy => ?_⟩
  · unfold Heap.takeChild
    rw [Heap.store_child_eq he, Run.bind_ok, Node.of_setChild, Heap.node_eq he₁, Run.bind_ok,
      Heap.modify_eq hm₁, Run.bind_ok, Node.of_parent, Node.of_root,
      Heap.modify_eq Heap.cell_withNode_self]
  · intro b n hb hn
    obtain rfl := Option.some.inj (ha.symm.trans hb)
    obtain rfl := Option.some.inj (hm.symm.trans hn)
    simp only [hs₂, Heap.cell_withNode, if_true]
  · exact hcell y (ne_of_mem_of_not_mem hy heu) fun heq => hne (heq ▸ ha)
  · refine hc.frame rfl fun y hy => hcell y ?_ ?_
    · exact fun heq => hup e.1 (.inl rfl) y hy heq.symm
    · exact fun heq => hup a (.inr (.inl hamem)) y hy heq.symm
  · simp only [hs₂, hs₁, Heap.cell_withNode, if_neg (Ne.symm hae), if_true]
    rfl
  · simp only [List.mem_cons, not_or] at hy
    exact hcell y hy.1 fun heq => hy.2 (heq ▸ hamem)

end few

/-! ### Two children -/

section two
variable {e m : ℕ × K × V} {h g : ℤ} {l r mr : Tree K V}

/-- The walk to the smallest node of a subtree. -/
lemma Zip.leftmost_ok {t : Tree K V} (hz : Zip s c t) (hne : t ≠ .nil)
    (hfuel : t.inorder.length ≤ fuel) :
    ∃ c' m hm mr, t = plug c' (.node m hm .nil mr) ∧ (∀ f ∈ c', f.d = false) ∧
      s.leftmost fuel (slotOf c) = .ok (slotOf (c' ++ c)) := by
  induction t generalizing c fuel with
  | nil => exact absurd rfl hne
  | node e h l r ihl ihr =>
    rw [inorder, List.length_append, List.length_cons] at hfuel
    obtain ⟨fuel, rfl⟩ : ∃ m, fuel = m + 1 := ⟨fuel - 1, by omega⟩
    have hload : s.load (slotOf c) = .ok (some e.1) := hz.up.load_slot
    have hl : Zip s (⟨false, e, h, r⟩ :: c) l := zip_fill.2 hz
    unfold Heap.leftmost
    rw [hload, Run.bind_ok, deref_some, Run.bind_ok, Heap.node_eq hz.down.1, Run.bind_ok]
    dsimp only
    cases hla : addr l with
    | none =>
      obtain rfl := addr_eq_none.1 hla
      exact ⟨[], e, h, r, rfl, by simp, rfl⟩
    | some b =>
      have hlne : l ≠ .nil := by
        rintro rfl
        cases hla
      obtain ⟨c', m, hm, mr, rfl, hleft, hrun⟩ := ihl hl hlne (show _ ≤ fuel by omega)
      refine ⟨c' ++ [⟨false, e, h, r⟩], m, hm, mr, by rw [plug_append]; rfl, fun f hf => ?_, ?_⟩
      · rcases List.mem_append.1 hf with hf | hf
        · exact hleft f hf
        · rw [List.mem_singleton.1 hf]
      · rw [List.append_assoc]
        exact hrun

lemma addr_plug_mem {f : Frame (ℕ × K × V)} {c : List (Frame (ℕ × K × V))} {t : Tree K V} {a : ℕ}
    (ha : addr (plug (f :: c) t) = some a) : a ∈ addrsUp (f :: c) := by
  induction c generalizing f t with
  | nil =>
    rw [plug, plug, Frame.fill, addr_branch] at ha
    rw [addrsUp_cons, Option.some.inj ha]
    exact List.mem_cons_self
  | cons g c ih =>
    rw [addrsUp_cons]
    exact List.mem_cons_of_mem _ (List.mem_append_right _ (ih ha))

/-- A step of `takeNext`: the right subtree of the successor goes where that was. -/
lemma Zip.unhook_ok (hz : Zip s c (.node m g .nil mr)) (prev : Option ℕ) :
    ∃ s₁ s', s.store (slotOf c) none = .ok s₁ ∧ s₁.node m.1 = s.node m.1 ∧
      (if (addr mr).isSome then do
        let s ← s₁.swap (slotOf c) (.child true m.1)
        s.adopt (← s.load (slotOf c)) prev
      else .ok s₁) = .ok s' ∧ OwnsUp s' c (addr mr) ∧ Owns s' mr prev false ∧
      s'.cell m.1 = some ⟨upper c, c.isEmpty, g, m.2.1, m.2.2, none, none⟩ ∧
      Local (m.1 :: (addrs mr ++ addrsUp c)) s s' := by
  obtain ⟨⟨hcell, -, hmr⟩, hc, hnd⟩ := hz
  rw [addrs_node] at hnd
  obtain ⟨hmem, hnd⟩ := List.nodup_cons.1 hnd
  obtain ⟨hndr, hndc, hdisj⟩ := List.nodup_append.1 hnd
  simp only [List.append_eq, List.mem_append, not_or] at hmem
  obtain ⟨hmmr, hmc⟩ := hmem
  have hout : ∀ p y, y ∉ addrsUp c → (s.point c p).cell y = s.cell y := fun p y hy => cell_point hy
  have hslot : ∀ p, OwnsUp (s.point c p) c p := fun p => hc.point hndc
  have hm₁ : ∀ p, (s.point c p).cell m.1 = _ := fun p => (hout p _ hmc).trans hcell
  refine ⟨s.point c none, ?_⟩
  cases hmra : addr mr with
  | none =>
    obtain rfl := addr_eq_none.1 hmra
    refine ⟨s.point c none, hc.store_slot _, ?_, rfl, hslot none, trivial, hm₁ none, fresh_point,
      fun y hy => hout none y fun hyc => hy ?_⟩
    · rw [Heap.node_eq hcell, Heap.node_eq (hm₁ none)]
    · exact List.mem_cons_of_mem _ (List.mem_append_right _ hyc)
  | some b =>
    set s₂ := (s.point c (some b)).withNode m.1 ⟨upper c, c.isEmpty, g, m.2.1, m.2.2, none, none⟩
      with hs₂
    have hcell₂ : ∀ y, y ≠ m.1 → s₂.cell y = (s.point c (some b)).cell y := fun y hy =>
      Heap.cell_withNode_of_ne hy
    have hslot₂ : OwnsUp s₂ c (some b) := (hslot (some b)).withNode hmc _
    have hmr₂ : Owns s₂ mr (some m.1) false := hmr.frame fun y hy =>
      (hcell₂ y (ne_of_mem_of_not_mem hy hmmr)).trans
        (hout _ y fun hyc => hdisj y hy y hyc rfl)
    obtain ⟨s', hadopt, hmr', hptr', hlocal'⟩ := hmr₂.adopt_ok hndr prev
    refine ⟨s', hc.store_slot _, ?_, ?_, ?_, hmr', ?_, ?_, fun y hy => ?_⟩
    · rw [Heap.node_eq hcell, Heap.node_eq (hm₁ none)]
    · have hswap : (s.point c none).swap (slotOf c) (.child true m.1) = .ok s₂ := by
        unfold Heap.swap
        rw [(hslot none).load_slot, Run.bind_ok, Heap.load_child_eq (hm₁ none), Run.bind_ok,
          (hslot none).store_slot, Run.bind_ok, point_point, Node.child, if_pos rfl, hmra,
          Heap.store_child_eq (hm₁ (some b)) true none]
        rfl
      rw [if_pos (by rfl), hswap, Run.bind_ok, hslot₂.load_slot, Run.bind_ok, ← hmra]
      exact hadopt
    · exact hslot₂.frame hptr' fun y hy => hlocal'.cell_eq y fun hyr => hdisj y hyr y hy rfl
    · exact (hlocal'.cell_eq _ hmmr).trans Heap.cell_withNode_self
    · exact hlocal'.fresh_eq.trans fresh_point
    · simp only [List.mem_cons, List.mem_append, not_or] at hy
      exact (hlocal'.cell_eq y hy.2.1).trans ((hcell₂ y hy.1).trans (hout _ y hy.2.2))

/-- The successor of `e` is out of the tree, whose right subtree is otherwise as it was; the
remaining parent links to it are of no matter. -/
structure Unhooked (s' : Heap K V) (c : List (Frame (ℕ × K × V))) (e m : ℕ × K × V) (h : ℤ)
    (l r : Tree K V) : Prop where
  right : ∃ q, Owns s' r q false
  left : Owns s' l (some e.1) false
  up : OwnsUp s' c (some e.1)
  node : s'.cell e.1 = some ⟨upper c, c.isEmpty, h, e.2.1, e.2.2, addr l, addr r⟩
  next : ∃ q b g, s'.cell m.1 = some ⟨q, b, g, m.2.1, m.2.2, none, none⟩

lemma Zip.takeNext_ok (hz : Zip s c (.node e h l r)) (hne : r ≠ .nil)
    (hfuel : r.inorder.length ≤ fuel) :
    ∃ c' m g mr s', r = plug c' (.node m g .nil mr) ∧ (∀ f ∈ c', f.d = false) ∧
      s.takeNext fuel e.1 = .ok (s', m.1, upper (c' ++ ⟨true, m, h, l⟩ :: c),
        true ^^ sideOf (c' ++ ⟨true, m, h, l⟩ :: c)) ∧
      Unhooked s' c e m h l (plug c' mr) ∧ Local (around (.node e h l r) c) s s' := by
  have hr : Zip s (⟨true, e, h, l⟩ :: c) r := zip_fill.2 hz
  obtain ⟨c', m, g, mr, rfl, hleft, hwalk⟩ := hr.leftmost_ok hne hfuel
  have hm := zip_append.2 hr
  have hmnode := Heap.node_eq hm.down.1
  obtain ⟨s₁, s', hstore, hnode₁, hrun, hup, hmr, hcell, hlocal⟩ :=
    hm.unhook_ok (upper (c' ++ ⟨true, m, h, l⟩ :: c))
  have hright : s.load (.child true e.1) = .ok (addr (plug c' (.node m g .nil mr))) := by
    rw [Heap.load_child_eq hz.down.1]
    rfl
  refine ⟨c', m, g, mr, s', rfl, hleft, ?_, ?_, hlocal.mono fun y hy => ?_⟩
  · have hside : decide (some m.1 ≠ addr (plug c' (.node m g .nil mr))) =
        (true ^^ sideOf (c' ++ ⟨true, m, h, l⟩ :: c)) := by
      cases c' with
      | nil => simp [plug, addr, sideOf]
      | cons f c' =>
        have hout : addr (plug (f :: c') (.node m g .nil mr)) ≠ some m.1 := by
          intro heq
          have hmem := addr_plug_mem heq
          have hnd := hm.nodup
          rw [addrsUp_append, List.nodup_append] at hnd
          exact hnd.2.2 m.1 (mem_addrs_of_addr rfl) m.1 (List.mem_append_left _ hmem) rfl
        have hd : sideOf (f :: c' ++ ⟨true, m, h, l⟩ :: c) = false := hleft f List.mem_cons_self
        rw [hd, decide_eq_true (Ne.symm hout)]
        rfl
    have hprev : (if (true ^^ sideOf (c' ++ ⟨true, m, h, l⟩ :: c)) = true
        then upper (c' ++ ⟨true, e, h, l⟩ :: c) else some m.1) =
          upper (c' ++ ⟨true, m, h, l⟩ :: c) := by
      cases c' with
      | nil => rfl
      | cons f c' =>
        have hd : sideOf (f :: c' ++ ⟨true, m, h, l⟩ :: c) = false := hleft f List.mem_cons_self
        rw [hd]
        rfl
    have hrl : s.load (slotOf (c' ++ ⟨true, e, h, l⟩ :: c)) = .ok (some m.1) := hm.up.load_slot
    have hslot : Slot.child true e.1 = slotOf (⟨true, e, h, l⟩ :: c) := rfl
    unfold Heap.takeNext
    rw [hslot, hwalk, Run.bind_ok, hrl, Run.bind_ok, ← hslot, hright, Run.bind_ok]
    dsimp only
    rw [deref_some, Run.bind_ok, hstore, Run.bind_ok, hnode₁, hmnode, Run.bind_ok, hside]
    dsimp only
    rw [hprev]
    cases hmra : addr mr with
    | none =>
      rw [hmra] at hrun
      rw [Except.ok.inj hrun]
      rfl
    | some b =>
      rw [hmra] at hrun
      obtain ⟨s₂, hswap, hadopt⟩ := Run.bind_eq_ok.1 hrun
      obtain ⟨p, hload, hadopt⟩ := Run.bind_eq_ok.1 hadopt
      rw [if_pos (by rfl), hswap, Run.bind_ok, hload, Run.bind_ok, hadopt, Run.bind_ok]
  · cases c' with
    | nil =>
      obtain ⟨he, hl, hc⟩ := hup
      exact ⟨⟨_, hmr⟩, hl, hc, he, _, _, _, hcell⟩
    | cons f c' =>
      have hz' : Zip s' (f :: c' ++ ⟨true, e, h, l⟩ :: c) mr :=
        ⟨hmr, hup, hm.nodup.sublist (List.sublist_cons_self _ _)⟩
      obtain ⟨hdown, ⟨he, hl, hc⟩, -⟩ := zip_append.1 hz'
      exact ⟨⟨_, hdown⟩, hl, hc, he, _, _, _, hcell⟩
  · have hmem : y ∈ around (.node m g .nil mr) (c' ++ ⟨true, e, h, l⟩ :: c) := hy
    rw [mem_around, plug_append] at hmem
    exact mem_around.2 hmem

/-- A child is taken from its parent and gets another one. -/
lemma Owns.takeOut_ok {t : Tree K V} {d : Bool} {a : ℕ} {n : Node K V} {q : Option ℕ} {b : Bool}
    (ht : Owns s t q b) (hnd : (addrs t).Nodup) (ha : s.cell a = some n) (hat : a ∉ addrs t)
    (p : Option ℕ) : ∃ s₁ s', s.store (.child d a) none = .ok s₁ ∧ s₁.adopt (addr t) p = .ok s' ∧
      Owns s' t p b ∧ s'.ptr = s.ptr ∧ s'.cell a = some (n.setChild d none) ∧
      Local (a :: addrs t) s s' := by
  have hcell : ∀ y, y ≠ a → (s.withNode a (n.setChild d none)).cell y = s.cell y := fun y hy =>
    Heap.cell_withNode_of_ne hy
  have ht₁ : Owns (s.withNode a (n.setChild d none)) t q b :=
    ht.frame fun y hy => hcell y (ne_of_mem_of_not_mem hy hat)
  obtain ⟨s', hadopt, ht', hptr, hlocal⟩ := ht₁.adopt_ok hnd p
  refine ⟨_, s', Heap.store_child_eq ha d none, hadopt, ht', hptr,
    (hlocal.cell_eq a hat).trans Heap.cell_withNode_self, hlocal.fresh_eq, fun y hy => ?_⟩
  rw [List.mem_cons, not_or] at hy
  exact (hlocal.cell_eq y hy.2).trans (hcell y hy.1)

/-- A child is handed over to a node without a child on that side. -/
lemma Owns.handOver_ok {t : Tree K V} {d : Bool} {a m : ℕ} {n n' : Node K V} {q : Option ℕ}
    {b : Bool} (ht : Owns s t q b) (hnd : (addrs t).Nodup) (ha : s.cell a = some n)
    (hm : s.cell m = some n') (ham : a ≠ m) (hat : a ∉ addrs t) (hmt : m ∉ addrs t)
    (hchild : n.child d = addr t) (hnone : n'.child d = none) (p : Option ℕ) :
    ∃ s₁ s', s.swap (.child d m) (.child d a) = .ok s₁ ∧ s₁.adopt (addr t) p = .ok s' ∧
      Owns s' t p b ∧ s'.ptr = s.ptr ∧ s'.cell a = some (n.setChild d none) ∧
      s'.cell m = some (n'.setChild d (addr t)) ∧ Local (a :: m :: addrs t) s s' := by
  have ha₁ : (s.withNode m (n'.setChild d (addr t))).cell a = some n :=
    (Heap.cell_withNode_of_ne ham).trans ha
  have ht₁ : Owns (s.withNode m (n'.setChild d (addr t))) t q b :=
    ht.frame fun y hy => Heap.cell_withNode_of_ne (ne_of_mem_of_not_mem hy hmt)
  obtain ⟨s₁, s', hstore, hadopt, ht', hptr, ha', hlocal⟩ := ht₁.takeOut_ok hnd ha₁ hat p
  refine ⟨s₁, s', ?_, hadopt, ht', hptr, ha', ?_, hlocal.fresh_eq, fun y hy => ?_⟩
  · unfold Heap.swap
    rw [Heap.load_child_eq hm, Run.bind_ok, Heap.load_child_eq ha, Run.bind_ok, hchild, hnone,
      Heap.store_child_eq hm, Run.bind_ok, hstore]
  · exact (hlocal.cell_eq m (List.not_mem_cons_of_ne_of_not_mem (Ne.symm ham) hmt)).trans
      Heap.cell_withNode_self
  · simp only [List.mem_cons, not_or] at hy
    exact (hlocal.cell_eq y (List.not_mem_cons_of_ne_of_not_mem hy.1 hy.2.2)).trans
      (Heap.cell_withNode_of_ne hy.2.1)

lemma Unhooked.takePlace_ok (hs : Unhooked s c e m h l r) (hne : l ≠ .nil)
    (hnd : (m.1 :: e.1 :: (addrs l ++ addrs r ++ addrsUp c)).Nodup) :
    ∃ s', s.takePlace fuel e.1 m.1 (slotOf c) = .ok (s', some e.1) ∧
      Zip s' c (.node m h l r) ∧
      (∃ n, s'.cell e.1 = some n ∧ n.left = none ∧ n.right = none) ∧
      Local (m.1 :: e.1 :: (addrs l ++ addrs r ++ addrsUp c)) s s' := by
  obtain ⟨⟨q, hr⟩, hl, hc, he, qm, bm, g, hm⟩ := hs
  obtain ⟨hme, hnd⟩ := List.nodup_cons.1 hnd
  obtain ⟨hee, hnd⟩ := List.nodup_cons.1 hnd
  obtain ⟨hndlr, hndc, hlrc⟩ := List.nodup_append.1 hnd
  obtain ⟨hndl, hndr, hlr⟩ := List.nodup_append.1 hndlr
  simp only [List.mem_cons, List.mem_append, not_or] at hme hee hlrc
  obtain ⟨hme, ⟨hml, hmr⟩, hmc⟩ := hme
  obtain ⟨⟨hel, her⟩, hec⟩ := hee
  have hsome : (addr l).isSome = true :=
    Option.isSome_iff_ne_none.2 fun hnone => hne (addr_eq_none.1 hnone)
  -- the right subtree
  obtain ⟨s₁, s₂, hstore₁, hadopt₂, hr₂, hptr₂, he₂, hlocal₂⟩ :=
    hr.takeOut_ok (d := true) hndr he her (some m.1)
  have hcell₂ : ∀ y, y ≠ e.1 → y ∉ addrs r → s₂.cell y = s.cell y := fun y hye hyr =>
    hlocal₂.cell_eq y (List.not_mem_cons_of_ne_of_not_mem hye hyr)
  have hm₂ := (hcell₂ _ hme hmr).trans hm
  have hl₂ : Owns s₂ l (some e.1) false := hl.frame fun y hy =>
    hcell₂ y (ne_of_mem_of_not_mem hy hel) fun hyr => hlr y hy y hyr rfl
  -- the left subtree
  obtain ⟨s₃, s₄, hswap, hadopt₄, hl₄, hptr₄, he₄, hm₄, hlocal₄⟩ :=
    hl₂.handOver_ok (d := false) hndl he₂ hm₂ (Ne.symm hme) hel hml rfl rfl (some m.1)
  have hcell₄ : ∀ y, y ≠ e.1 → y ≠ m.1 → y ∉ addrs l → s₄.cell y = s₂.cell y :=
    fun y hye hym hyl =>
      hlocal₄.cell_eq y (List.not_mem_cons_of_ne_of_not_mem hye
        (List.not_mem_cons_of_ne_of_not_mem hym hyl))
  -- the node itself, and the link above
  set s₅ := s₄.withNode m.1 ⟨upper c, c.isEmpty, h, m.2.1, m.2.2, addr l, addr r⟩ with hs₅
  have hcell₅ : ∀ y, y ≠ m.1 → s₅.cell y = s₄.cell y := fun y hy => Heap.cell_withNode_of_ne hy
  have hc₅ : OwnsUp s₅ c (some e.1) := hc.frame (hptr₄.trans hptr₂) fun y hy => by
    have hye := ne_of_mem_of_not_mem hy hec
    have hym := ne_of_mem_of_not_mem hy hmc
    rw [hcell₅ y hym, hcell₄ y hye hym fun hyl => hlrc y (.inl hyl) y hy rfl,
      hcell₂ y hye fun hyr => hlrc y (.inr hyr) y hy rfl]
  have hout : ∀ y, y ∉ addrsUp c → (s₅.point c (some m.1)).cell y = s₅.cell y := fun y hy =>
    cell_point hy
  refine ⟨s₅.point c (some m.1), ?_, ⟨⟨?_, hl₄.frame fun y hy => ?_, hr₂.frame fun y hy => ?_⟩,
    hc₅.point hndc, ?_⟩, ?_, ?_, fun y hy => ?_⟩
  · unfold Heap.takePlace
    rw [Heap.load_child_eq he, Run.bind_ok, hstore₁, Run.bind_ok]
    show s₁.adopt (addr r) (some m.1) >>= _ = _
    rw [hadopt₂, Run.bind_ok, Heap.load_child_eq he₂, Run.bind_ok]
    show (if (addr l).isSome then _ else _) >>= _ = _
    rw [if_pos hsome, hswap, Run.bind_ok]
    show s₃.adopt (addr l) (some m.1) >>= _ = _
    rw [hadopt₄, Run.bind_ok, Heap.node_eq he₄, Run.bind_ok, Heap.modify_eq hm₄, Run.bind_ok,
      Heap.assign_child_eq fuel Heap.cell_withNode_self rfl, Run.bind_ok, Heap.withNode_withNode,
      Heap.modify_withNode, Run.bind_ok, Heap.modify_withNode, Run.bind_ok]
    show s₅.load (slotOf c) >>= _ = _
    rw [hc₅.load_slot, Run.bind_ok]
    show s₅.store (slotOf c) (some m.1) >>= _ = _
    rw [hc₅.store_slot, Run.bind_ok]
  · exact (hout _ hmc).trans Heap.cell_withNode_self
  · rw [hout y fun hyc => hlrc y (.inl hy) y hyc rfl, hcell₅ y (ne_of_mem_of_not_mem hy hml)]
  · have hym := ne_of_mem_of_not_mem hy hmr
    rw [hout y fun hyc => hlrc y (.inr hy) y hyc rfl, hcell₅ y hym,
      hcell₄ y (ne_of_mem_of_not_mem hy her) hym fun hyl => hlr y hyl y hy rfl]
  · rw [addrs_node, List.append_assoc, List.cons_append]
    refine (List.perm_middle.nodup_iff).2 (List.nodup_cons.2 ⟨?_, by rwa [← List.append_assoc]⟩)
    simp only [List.mem_append, not_or]
    exact ⟨hml, hmr, hmc⟩
  · exact ⟨_, (hout _ hec).trans ((hcell₅ _ (Ne.symm hme)).trans he₄), rfl, rfl⟩
  · exact fresh_point.trans (hlocal₄.fresh_eq.trans hlocal₂.fresh_eq)
  · simp only [List.mem_cons, List.mem_append, not_or] at hy
    rw [hout y hy.2.2.2, hcell₅ y hy.1, hcell₄ y hy.2.1 hy.1 hy.2.2.1.1,
      hcell₂ y hy.2.1 hy.2.2.1.2]

end two

/-! ### Both cases -/

section removing
variable {e : ℕ × K × V} {h : ℤ} {l r : Tree K V}

/-- The node is out of the tree, and the tree is otherwise as it was, in order. -/
def Detached (c : List (Frame (ℕ × K × V))) (e : ℕ × K × V) (l r : Tree K V) (s' : Heap K V) :
    Prop :=
  ∃ t', Zip s' [] t' ∧ t'.Balanced ∧
    t'.inorder = before c ++ (l.inorder ++ r.inorder) ++ after c ∧
    ∃ n, s'.cell e.1 = some n ∧ n.left = none ∧ n.right = none

lemma Rebalanced.detached {u : Tree K V} {s' : Heap K V} {n : Node K V}
    (hdone : Rebalanced c u s s') (horder : u.inorder = l.inorder ++ r.inorder)
    (hout : e.1 ∉ around u c) (hn : s.cell e.1 = some n) (hleft : n.left = none)
    (hright : n.right = none) : Detached c e l r s' := by
  obtain ⟨t', hz', hbalanced', horder', hlocal⟩ := hdone
  refine ⟨t', hz', hbalanced', ?_, n, (hlocal.cell_eq _ hout).trans hn, hleft, hright⟩
  rw [horder', inorder_plug, horder]

/-- A node with a child on side `d` at most. -/
lemma Zip.unlink_ok {d : Bool} {u : Tree K V} (hz : Zip s c (branch d e h u .nil))
    (hbalanced : (plug c (branch d e h u .nil)).Balanced) (hfuel : c.length ≤ fuel) {s₁ : Heap K V}
    (hu : Owns s₁ u (upper c) c.isEmpty) (hc : OwnsUp s₁ c (some e.1))
    (he : s₁.cell e.1 = some (Node.of d (upper c) c.isEmpty e h none none))
    (horder : u.inorder = l.inorder ++ r.inorder)
    (hlocal₁ : Local (around (branch d e h u .nil) c) s s₁) :
    ∃ s', s₁.unlink fuel e.1 (slotOf c) (addr u) = .ok (s', some e.1) ∧ Detached c e l r s' ∧
      Local (around (branch d e h u .nil) c) s s' := by
  obtain ⟨hbalanced, hup⟩ := balanced_plug.1 hbalanced
  rw [height_branch, height, max_eq_left (height_nonneg u), add_comm] at hup
  have hnd := hz.nodup
  rw [(addrs_branch_perm.append_right _).nodup_iff, List.cons_append, List.nodup_cons] at hnd
  have hnil : addrs (AvlTree.nil : Tree K V) = [] := rfl
  rw [hnil, List.append_nil] at hnd
  obtain ⟨hout, hnd⟩ := hnd
  obtain ⟨s', hrun, hdone⟩ := hc.unlink_ok hu he Node.of_parent
    (fun hmem => hout (List.mem_append_right _ hmem)) hnd (balanced_branch.1 hbalanced).2.2.2.1 hup
    hfuel
  refine ⟨s', hrun, hdone.detached horder hout he ?_ ?_, hlocal₁.trans ?_⟩
  · cases d <;> rfl
  · cases d <;> rfl
  · obtain ⟨t', -, -, -, hlocal'⟩ := hdone
    refine hlocal'.mono fun y hy => ?_
    simp only [around, List.mem_append, mem_addrs_branch] at hy ⊢
    tauto

lemma Zip.splice_ok (hz : Zip s c (.node e h l r))
    (hbalanced : (plug c (.node e h l r)).Balanced)
    (hfuel : (plug c (.node e h l r)).inorder.length ≤ fuel) (hl : l ≠ .nil) (hr : r ≠ .nil) :
    ∃ s', s.splice fuel e.1 (slotOf c) = .ok (s', some e.1) ∧ Detached c e l r s' ∧
      Local (around (.node e h l r) c) s s' := by
  have hlen := length_le_plug c (.node e h l r)
  rw [inorder, List.length_append, List.length_cons] at hlen
  obtain ⟨c', m, g, mr, s₁, rfl, hleft, htake, hunhooked, hlocal₁⟩ :=
    hz.takeNext_ok hr (show _ ≤ fuel by omega)
  have horder : (plug c' (.node m g .nil mr)).inorder = m :: (plug c' mr).inorder := by
    rw [inorder_plug, inorder_plug, before_of_left hleft]
    rfl
  have haddrs : addrs (plug c' (.node m g .nil mr)) = m.1 :: addrs (plug c' mr) :=
    congrArg (List.map Prod.fst) horder
  have hnd : (m.1 :: e.1 :: (addrs l ++ addrs (plug c' mr) ++ addrsUp c)).Nodup := by
    have hnd := hz.nodup
    rw [addrs_node, haddrs] at hnd
    refine (List.Perm.nodup_iff ?_).1 hnd
    rw [List.append_assoc, List.append_assoc, List.cons_append, List.cons_append]
    exact List.perm_middle.trans ((List.perm_middle.cons e.1).trans (List.Perm.swap _ _ _))
  obtain ⟨s₂, hplace, hz₂, ⟨n, hn, hnl, hnr⟩, hlocal₂⟩ := hunhooked.takePlace_ok hl hnd
  have hz₂' : Zip s₂ (c' ++ ⟨true, m, h, l⟩ :: c) mr := zip_append.2 (zip_fill.2 hz₂)
  have hplug : plug (c' ++ ⟨true, e, h, l⟩ :: c) (.node m g .nil mr) =
      plug c (.node e h l (plug c' (.node m g .nil mr))) := plug_append _ _ _
  have hplug₂ : plug (c' ++ ⟨true, m, h, l⟩ :: c) mr = plug c (.node m h l (plug c' mr)) :=
    plug_append _ _ _
  rw [← hplug] at hbalanced hfuel
  obtain ⟨⟨-, -, -, -, hmr⟩, hup⟩ := balanced_plug.1 hbalanced
  have hheight : height (.node m g .nil mr) = mr.height + 1 := by
    rw [height, height, max_eq_right (height_nonneg mr), add_comm]
  rw [hheight] at hup
  have hlen := length_le_plug (c' ++ ⟨true, e, h, l⟩ :: c) (.node m g .nil mr)
  have hsame : (c' ++ ⟨true, m, h, l⟩ :: c).length = (c' ++ ⟨true, e, h, l⟩ :: c).length := by
    rw [List.length_append, List.length_append, List.length_cons, List.length_cons]
  have hdepth : (c' ++ ⟨true, m, h, l⟩ :: c).length ≤ fuel := by omega
  obtain ⟨s', q, hrun, t', hz', hbalanced', horder', hlocal'⟩ :=
    hz₂'.rebalance_ok true hmr hup.relabel (Int.add_sub_cancel _ _).symm hdepth
  have haround : ∀ y, y ∈ around mr (c' ++ ⟨true, m, h, l⟩ :: c) ↔
      y = m.1 ∨ (y ∈ addrs l ∨ y ∈ addrs (plug c' mr)) ∨ y ∈ addrsUp c := by
    intro y
    rw [mem_around, hplug₂, ← mem_around]
    simp only [around, addrs_node, List.mem_append, List.mem_cons]
    tauto
  refine ⟨s', ?_, ⟨t', hz', hbalanced', ?_, n, ?_, hnl, hnr⟩, ?_⟩
  · obtain ⟨x, hx⟩ : ∃ x, upper (c' ++ ⟨true, m, h, l⟩ :: c) = some x := by
      cases c' <;> exact ⟨_, rfl⟩
    rw [hx] at htake hrun
    unfold Heap.splice
    rw [htake, Run.bind_ok]
    dsimp only
    rw [hplace, Run.bind_ok]
    dsimp only
    rw [deref_some, Run.bind_ok, hrun, Run.bind_ok]
  · rw [horder', hplug₂, inorder_plug, horder]
    rfl
  · rw [hlocal'.cell_eq _ (mt (haround _).1 ?_)]
    · exact hn
    · simp only [List.nodup_cons, List.mem_cons, List.mem_append] at hnd
      rintro (heq | hmem)
      · exact hnd.1 (.inl heq.symm)
      · exact hnd.2.1 hmem
  · have hin : ∀ y, y ∈ around (.node e h l (plug c' (.node m g .nil mr))) c ↔
        y = e.1 ∨ y = m.1 ∨ (y ∈ addrs l ∨ y ∈ addrs (plug c' mr)) ∨ y ∈ addrsUp c := by
      intro y
      simp only [around, addrs_node, haddrs, List.mem_append, List.mem_cons]
      tauto
    refine hlocal₁.trans ((hlocal₂.mono fun y hy => ?_).trans (hlocal'.mono fun y hy => ?_))
    · simp only [List.mem_cons, List.mem_append] at hy
      exact (hin y).2 (by tauto)
    · exact (hin y).2 (.inr ((haround y).1 hy))

lemma mem_around_branch {d : Bool} {u w : Tree K V} {y : ℕ} (hy : y ∈ e.1 :: addrs u) :
    y ∈ around (branch d e h u w) c := by
  simp only [around, List.mem_append, mem_addrs_branch, List.mem_cons] at hy ⊢
  tauto

/-- A node with its only child on side `d`. -/
lemma Zip.remove_one {d : Bool} {u : Tree K V} {a : ℕ} (hz : Zip s c (branch d e h u .nil))
    (hbalanced : (plug c (branch d e h u .nil)).Balanced) (hfuel : c.length ≤ fuel)
    (ha : addr u = some a) (horder : u.inorder = l.inorder ++ r.inorder) :
    ∃ s', (do
        let s ← s.takeChild d e.1 a
        s.unlink fuel e.1 (slotOf c) (some a)) = .ok (s', some e.1) ∧ Detached c e l r s' ∧
      Local (around (branch d e h u .nil) c) s s' := by
  obtain ⟨s₁, htake, hu₁, hc₁, he₁, hlocal₁⟩ := hz.takeChild_ok ha
  obtain ⟨s', hrun, hdone⟩ := hz.unlink_ok hbalanced hfuel hu₁ hc₁ he₁ horder
    (hlocal₁.mono fun y hy => mem_around_branch hy)
  refine ⟨s', ?_, hdone⟩
  rw [htake, Run.bind_ok, ← ha]
  exact hrun

lemma Zip.remove_ok (hz : Zip s c (.node e h l r))
    (hbalanced : (plug c (.node e h l r)).Balanced)
    (hfuel : (plug c (.node e h l r)).inorder.length ≤ fuel) :
    ∃ s', s.remove fuel e.1 = .ok (s', some e.1) ∧ Detached c e l r s' ∧
      Local (around (.node e h l r) c) s s' := by
  have hlen := length_le_plug c (.node e h l r)
  unfold Heap.remove
  rw [hz.parentPtr_ok rfl, Run.bind_ok, Heap.node_eq hz.down.1, Run.bind_ok]
  dsimp only
  cases hla : addr l with
  | none =>
    obtain rfl := addr_eq_none.1 hla
    cases hra : addr r with
    | none =>
      obtain rfl := addr_eq_none.1 hra
      exact Zip.unlink_ok (d := true) (u := .nil) hz hbalanced (by omega) trivial hz.up hz.down.1 rfl
        ⟨rfl, fun _ _ => rfl⟩
    | some b =>
      exact Zip.remove_one (d := true) (l := .nil) hz hbalanced (by omega) hra rfl
  | some a =>
    cases hra : addr r with
    | none =>
      obtain rfl := addr_eq_none.1 hra
      exact Zip.remove_one (d := false) (r := .nil) hz hbalanced (by omega) hla
        (List.append_nil _).symm
    | some b =>
      refine hz.splice_ok hbalanced hfuel (fun heq => ?_) fun heq => ?_
      · exact nomatch hla.symm.trans (addr_eq_none.2 heq)
      · exact nomatch hra.symm.trans (addr_eq_none.2 heq)

/-- The tree without a node. -/
def Removed (e : ℕ × K × V) (t t' : Tree K V) : Prop :=
  ∃ l r, t.inorder = l ++ e :: r ∧ t'.inorder = l ++ r

lemma Avl.remove_ok {cmp : K → K → Bool} {t : Tree K V} (h : Avl cmp s t) (he : e ∈ t.inorder)
    (hfuel : s.fresh ≤ fuel) : ∃ s' t', s.remove fuel e.1 = .ok (s', some e.1) ∧ Avl cmp s' t' ∧
      Removed e t t' ∧ (∃ n, s'.cell e.1 = some n ∧ n.left = none ∧ n.right = none) ∧
      Local (addrs t) s s' := by
  have hlen := h.length_le
  obtain ⟨c, g, l, r, rfl⟩ := exists_focus he
  obtain ⟨s', hrun, ⟨t', hz', hbalanced', horder', hcell⟩, hlocal⟩ :=
    (zip_plug.1 h.zip).remove_ok h.balanced (hlen.trans hfuel)
  have hremoved : Removed e (plug c (.node e g l r)) t' := by
    refine ⟨before c ++ l.inorder, r.inorder ++ after c, ?_, ?_⟩
    · rw [inorder_plug, inorder]
      simp
    · rw [horder']
      simp
  have hsub : t'.inorder.Sublist (plug c (.node e g l r)).inorder := by
    obtain ⟨l', r', ht, ht'⟩ := hremoved
    rw [ht, ht']
    exact (List.sublist_cons_self _ _).append_left _
  have hlocal' := hlocal.mono fun y hy => mem_around.1 hy
  refine ⟨s', t', hrun, ⟨hz', hbalanced', h.sorted.sublist hsub, fun y hy => ?_⟩, hremoved, hcell,
    hlocal'⟩
  rw [hlocal'.fresh_eq]
  exact h.used y ((hsub.map Prod.fst).mem hy)

end removing
end CoreCommon.Btree
