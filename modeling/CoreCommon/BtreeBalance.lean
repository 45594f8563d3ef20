import CoreCommon.BtreeMemory

/-! Rebalancing: from a tree that is balanced but for one subtree whose height has changed, the
loop goes up to a balanced tree with the same nodes in the same order. -/
namespace CoreCommon.Btree
open AvlTree
variable {K V : Type} {s : Heap K V} {c : List (Frame (ℕ × K × V))} {d : Bool}

/-! ### Rotations -/

/-- The cells that rebalancing below a hole may change. -/
def around (t : Tree K V) (c : List (Frame (ℕ × K × V))) : List ℕ := addrs t ++ addrsUp c

lemma mem_around_fill {f : Frame (ℕ × K × V)} {t : Tree K V} {y : ℕ} :
    y ∈ around t (f :: c) ↔ y ∈ around (f.fill t) c := by
  simp only [around, addrsUp_cons, Frame.fill, List.mem_append, List.mem_cons, mem_addrs_branch]
  tauto

lemma mem_around {t : Tree K V} {y : ℕ} : y ∈ around t c ↔ y ∈ addrs (plug c t) := by
  have hperm := (inorder_plug_perm c t).map Prod.fst
  rw [List.map_append] at hperm
  exact hperm.mem_iff.symm

/-- A rotation, with the balance factors before it right for both nodes. -/
lemma Zip.rot_ok {a p : ℕ × K × V} {h hp : ℤ} {t u w : Tree K V}
    (hz : Zip s c (branch d a h (branch d p hp t u) w))
    (hh : h = sign d * (1 + max t.height u.height - w.height))
    (hhp : hp = sign d * (t.height - u.height)) :
    ∃ s', s.rot d a.1 = .ok (s', p.1) ∧
      Zip s' c (branch d p (sign d * (t.height - (1 + max u.height w.height))) t
        (branch d a (sign d * (u.height - w.height)) u w)) ∧
      Local (around (branch d a h (branch d p hp t u) w) c) s s' := by
  obtain ⟨s₁, hlift, hz₁, hlocal₁⟩ := hz.lift_ok
  -- the focus on the lower node
  have hbelow : Zip s₁ (⟨!d, p, hp, t⟩ :: c) (branch d a h u w) := by
    rwa [zip_fill, Frame.fill, branch_not]
  have hn := hbelow.node_ok
  have hnp := hz₁.node_ok
  obtain ⟨hh', hhp'⟩ := lean_rotate hh hhp rfl rfl
  obtain ⟨s₂, hmodify₂, hz₂, hlocal₂⟩ := hbelow.setHDiff_ok (sign d * (u.height - w.height))
  rw [zip_fill, Frame.fill, branch_not] at hz₂
  obtain ⟨s₃, hmodify₃, hz₃, hlocal₃⟩ :=
    hz₂.setHDiff_ok (sign d * (t.height - (1 + max u.height w.height)))
  refine ⟨s₃, ?_, hz₃, (hlocal₁.mono fun y hy => ?_).trans
    ((hlocal₂.mono fun y hy => ?_).trans (hlocal₃.mono fun y hy => ?_))⟩
  · unfold Heap.rot
    rw [hlift, Run.bind_ok]
    dsimp only
    rw [hn, Run.bind_ok, hnp, Run.bind_ok, Node.of_hDiff, Node.of_hDiff, hhp', hh', hmodify₂,
      Run.bind_ok, hmodify₃, Run.bind_ok]
  · simp only [around, List.mem_cons, List.mem_append, mem_addrs_branch] at hy ⊢
    tauto
  · simp only [List.mem_singleton.1 hy, around, List.mem_append, mem_addrs_branch, true_or]
  · simp only [List.mem_singleton.1 hy, around, List.mem_append, mem_addrs_branch, true_or, or_true]

lemma exists_branch {t : Tree K V} (ht : t.Balanced) (hpos : 0 < t.height) (d : Bool) :
    ∃ e h l r, t = branch d e h l r ∧ h = sign d * (l.height - r.height) ∧
      l.height - r.height ≤ 1 ∧ r.height - l.height ≤ 1 ∧ l.Balanced ∧ r.Balanced := by
  cases t with
  | nil => exact absurd hpos (lt_irrefl 0)
  | node e h l r =>
    obtain ⟨hh, hlo, hhi, hl, hr⟩ := ht
    cases d
    · exact ⟨e, h, l, r, rfl, by simp [sign, hh], by omega, by omega, hl, hr⟩
    · exact ⟨e, h, r, l, rfl, by simp [sign, hh], by omega, by omega, hr, hl⟩

/-- After the first half of a double rotation the child does not lean the other way. -/
lemma Zip.straighten_ok {a : ℕ × K × V} {h : ℤ} {t w : Tree K V}
    (hz : Zip s c (branch d a h t w)) (ht : t.Balanced) (hpos : 0 < t.height) :
    ∃ s' p hp l r, s.straighten d a.1 = .ok s' ∧ Zip s' c (branch d a h (branch d p hp l r) w) ∧
      hp = sign d * (l.height - r.height) ∧ l.Balanced ∧ r.Balanced ∧
      r.height ≤ l.height ∧ l.height - r.height ≤ 2 ∧ (branch d p hp l r).height = t.height ∧
      (branch d p hp l r).inorder = t.inorder ∧ Local (around (branch d a h t w) c) s s' := by
  obtain ⟨p, hp, l, r, rfl, hhp, hle, hge, hl, hr⟩ := exists_branch ht hpos d
  have hfocus : Zip s (⟨d, a, h, w⟩ :: c) (branch d p hp l r) := zip_fill.2 hz
  generalize hrun : s.straighten d a.1 = run
  unfold Heap.straighten at hrun
  rw [hz.node_ok, Run.bind_ok, Node.of_child, addr_branch, deref_some, Run.bind_ok,
    hfocus.node_ok, Run.bind_ok, Node.of_hDiff] at hrun
  by_cases hlean : hp = -sign d
  · rw [if_pos hlean] at hrun
    have hlr : r.height = l.height + 1 := by
      rcases sign_cases d with hd | hd <;> rw [hd] at hhp hlean <;> omega
    have hlnonneg := height_nonneg l
    obtain ⟨q, hq, rn, rf, rfl, hhq, hle', hge', hrn, hrf⟩ := exists_branch hr (by omega) (!d)
    rw [height_branch] at hlr hhp hge hle
    -- the rotation to the other side, below
    have hother : Zip s (⟨d, a, h, w⟩ :: c) (branch (!d) p hp (branch (!d) q hq rn rf) l) := by
      rwa [branch_not]
    have hhp' : hp = sign (!d) * (1 + max rn.height rf.height - l.height) := by
      rw [hhp, sign_not]
      ring
    obtain ⟨s₁, hrot, hz₁, hlocal⟩ := hother.rot_ok hhp' hhq
    set hq' := sign (!d) * (rn.height - (1 + max rf.height l.height)) with hhq'
    set hp' := sign (!d) * (rf.height - l.height) with hhp''
    have hz' : Zip s₁ c (branch d a h (branch d q hq' (branch d p hp' l rf) rn) w) := by
      rw [zip_fill, Frame.fill, branch_not, branch_not] at hz₁
      exact hz₁
    have hbelow : Zip s₁ (⟨d, a, h, w⟩ :: c) (branch d q hq' (branch d p hp' l rf) rn) :=
      zip_fill.2 hz'
    rw [Heap.rotate_eq, hrot, Run.bind_ok] at hrun
    dsimp only at hrun
    rw [hz'.node_ok, Run.bind_ok, Node.of_child, addr_branch, deref_some,
      Run.bind_ok, hbelow.node_ok, Run.bind_ok, Node.of_hDiff, if_pos] at hrun
    · refine ⟨s₁, q, hq', branch d p hp' l rf, rn, hrun.symm, hz', ?_, ?_, hrn, ?_, ?_, ?_, ?_,
        hlocal.mono fun y hy => ?_⟩
      · rw [hhq', height_branch, sign_not, max_comm l.height]
        ring
      · refine balanced_branch.2 ⟨?_, ?_, ?_, hl, hrf⟩
        · rw [hhp'', sign_not]
          ring
        all_goals rcases sign_cases d with hd | hd <;> rw [hhp'', sign_not, hd] <;> omega
      · rw [height_branch]
        omega
      · rw [height_branch]
        omega
      · rw [height_branch, height_branch, height_branch, height_branch]
        omega
      · cases d <;> simp [branch, inorder]
      · rw [branch_not d p hp] at hy
        exact mem_around_fill.1 hy
    · rcases sign_cases d with hd | hd <;> rw [hhq', sign_not, hd] <;> omega
  · rw [if_neg hlean] at hrun
    refine ⟨s, p, hp, l, r, hrun.symm, hz, hhp, hl, hr, ?_, by omega, rfl, rfl, rfl, fun _ _ => rfl⟩
    rcases sign_cases d with hd | hd <;> rw [hd] at hhp hlean <;> omega

/-- The node whose child on side `d` is too high by two. -/
lemma Zip.turn_ok {a : ℕ × K × V} {t w : Tree K V} {h : ℤ} (hz : Zip s c (branch d a h t w))
    (hh : h = sign d * (t.height - w.height)) (hhigh : t.height = w.height + 2)
    (ht : t.Balanced) (hw : w.Balanced) :
    ∃ s₁ s' p k l r, s.straighten d a.1 = .ok s₁ ∧ s₁.rotate d a.1 = .ok (s', p.1) ∧
      Zip s' c (branch d p k l r) ∧ (branch d p k l r).Balanced ∧
      (k = -sign d ∧ (branch d p k l r).height = w.height + 3 ∨
        k ≠ -sign d ∧ (branch d p k l r).height = w.height + 2) ∧
      (branch d p k l r).inorder = (branch d a h t w).inorder ∧
      Local (around (branch d a h t w) c) s s' := by
  have hnonneg := height_nonneg w
  obtain ⟨s₁, p, hp, l, r, hstraighten, hz₁, hhp, hl, hr, hle, hge, hheight, horder, hlocal₁⟩ :=
    hz.straighten_ok ht (by omega)
  rw [height_branch] at hheight
  obtain ⟨s', hrot, hz', hlocal'⟩ := hz₁.rot_ok (by rw [hh, hheight]) hhp
  have hsame : ∀ {h : ℤ} {y : ℕ},
      y ∈ around (branch d a h (branch d p hp l r) w) c ↔ y ∈ around (branch d a h t w) c := by
    intro h y
    have haddrs : addrs (branch d p hp l r) = addrs t := congrArg (List.map Prod.fst) horder
    simp only [around, List.mem_append, mem_addrs_branch (t := branch d p hp l r), haddrs,
      mem_addrs_branch (t := t)]
  refine ⟨s₁, s', p, _, l, _, hstraighten, (Heap.rotate_eq d s₁ a.1).trans hrot, hz', ?_, ?_, ?_,
    hlocal₁.trans (hlocal'.mono fun y hy => hsame.1 hy)⟩
  · refine balanced_branch.2 ⟨by rw [height_branch], ?_, ?_, hl,
      balanced_branch.2 ⟨rfl, ?_, ?_, hr, hw⟩⟩
    all_goals rcases sign_cases d with hd | hd <;> rw [hd] <;> omega
  · rw [height_branch, height_branch]
    rcases sign_cases d with hd | hd <;> rw [hd] <;> omega
  · rw [inorder_rotate d a p h hp]
    cases d <;> simp only [branch, inorder, if_true, Bool.false_eq_true, if_false] at horder ⊢ <;>
      rw [horder]

/-! ### The loop -/

/-- The subtree in the hole is higher by an insertion, or lower by a removal, than the factors
above it say. -/
def Changed (rem : Bool) (n : ℤ) (t : Tree K V) : Prop :=
  t.height = if rem then n - 1 else n + 1

/-- The node above, seen from the side to which its factor changes. -/
lemma exists_changed {rem : Bool} {f : Frame (ℕ × K × V)} {n : ℤ} {t : Tree K V}
    (ht : t.Balanced) (hf : BalancedUp (f :: c) n) (hchanged : Changed rem n t) :
    ∃ u w, f.fill t = branch (rem ^^ f.d) f.label f.lean u w ∧ u.Balanced ∧ w.Balanced ∧
      f.lean + sign (rem ^^ f.d) = sign (rem ^^ f.d) * (u.height - w.height) ∧
      0 ≤ u.height - w.height ∧ u.height - w.height ≤ 2 ∧
      1 + max n f.sibling.height =
        1 + if rem then max (w.height + 1) u.height else max (u.height - 1) w.height := by
  obtain ⟨d, e, h, sib⟩ := f
  obtain ⟨hh, hlo, hhi, hsib, -⟩ := hf
  dsimp only at hh hlo hhi hsib ⊢
  unfold Changed at hchanged
  cases rem
  · refine ⟨t, sib, by simp [Frame.fill], ht, hsib, ?_⟩
    rcases sign_cases d with hd | hd <;> simp [hd] at hh hchanged ⊢ <;> omega
  · refine ⟨sib, t, by simp [Frame.fill, branch_not], hsib, ht, ?_⟩
    rcases sign_cases d with hd | hd <;> simp [hd, sign_not] at hh hchanged ⊢ <;> omega

lemma around_congr {t t' : Tree K V} (h : t'.inorder = t.inorder) : around t' c = around t c := by
  unfold around addrs
  rw [h]

/-- What a call of the loop leaves behind. -/
def Rebalanced (c : List (Frame (ℕ × K × V))) (t : Tree K V) (s s' : Heap K V) : Prop :=
  ∃ t', Zip s' [] t' ∧ t'.Balanced ∧ t'.inorder = (plug c t).inorder ∧ Local (around t c) s s'

/-- The loop may stop once the height is what the factors above say. -/
lemma Zip.rebalanced {t : Tree K V} (hz : Zip s c t) (ht : t.Balanced)
    (hc : BalancedUp c t.height) : Rebalanced c t s s :=
  ⟨plug c t, zip_plug.2 hz, balanced_plug.2 ⟨ht, hc⟩, rfl, rfl, fun _ _ => rfl⟩

/-- A round that leaves `t'` instead of the node `f` above `t`. -/
lemma Rebalanced.round {f : Frame (ℕ × K × V)} {t t' : Tree K V} {s₁ s' : Heap K V}
    (h : Rebalanced c t' s₁ s') (horder : t'.inorder = (f.fill t).inorder)
    (hlocal : Local (around (f.fill t) c) s s₁) : Rebalanced (f :: c) t s s' := by
  obtain ⟨t'', hz, hbalanced, hinorder, hlocal'⟩ := h
  refine ⟨t'', hz, hbalanced, ?_, (hlocal.trans ?_).mono fun y hy => mem_around_fill.2 hy⟩
  · rw [hinorder, inorder_plug, horder, ← inorder_plug]
    rfl
  · rwa [around_congr horder] at hlocal'

lemma Zip.rebalance_ok (rem : Bool) {n : ℤ} {t : Tree K V} {fuel : ℕ} (hz : Zip s c t)
    (ht : t.Balanced) (hc : BalancedUp c n) (hchanged : Changed rem n t)
    (hfuel : c.length ≤ fuel) :
    ∃ s' r, s.rebalance fuel (upper c) (rem ^^ sideOf c) rem = .ok (s', r) ∧
      Rebalanced c t s s' := by
  induction c generalizing s n t fuel with
  | nil =>
    refine ⟨s, none, ?_, hz.rebalanced ht trivial⟩
    cases fuel <;> rfl
  | cons f c ih =>
    obtain ⟨fuel, rfl⟩ : ∃ m, fuel = m + 1 := ⟨fuel - 1, by rw [List.length_cons] at hfuel; omega⟩
    have hfuel : c.length ≤ fuel := Nat.le_of_succ_le_succ hfuel
    obtain ⟨u, w, hfill, hu, hw, hlean, hlo, hhi, hheight⟩ := exists_changed ht hc hchanged
    have hup : BalancedUp c (1 + max n f.sibling.height) := hc.2.2.2.2
    generalize hr : (rem ^^ f.d) = r at hfill hlean
    have hz₀ : Zip s c (branch r f.label f.lean u w) := hfill ▸ zip_fill.1 hz
    obtain ⟨s₁, hmodify, hz₁, hlocal₁⟩ := hz₀.setHDiff_ok (f.lean + sign r)
    have hlocal : Local (around (f.fill t) c) s s₁ := hlocal₁.mono fun y hy => by
      rw [List.mem_singleton.1 hy, hfill]
      exact List.mem_append_left _ (mem_addrs_of_addr addr_branch)
    have hsq : sign r * (f.lean + sign r) = u.height - w.height := by
      rcases sign_cases r with hd | hd <;> rw [hd] at hlean ⊢ <;> omega
    -- a round goes on when the height still differs, and stops when it does not
    have hgo : ∀ {s₃ : Heap K V} {t' : Tree K V}, Zip s₃ c t' → t'.Balanced →
        Changed rem (1 + max n f.sibling.height) t' → t'.inorder = (f.fill t).inorder →
        Local (around (f.fill t) c) s s₃ → ∃ s' q,
          s₃.rebalance fuel (upper c) (rem ^^ sideOf c) rem = .ok (s', q) ∧
            Rebalanced (f :: c) t s s' := by
      intro s₃ t' hz₃ ht' hchanged' horder hlocal₃
      obtain ⟨s', q, hrun, hdone⟩ := ih hz₃ ht' hup hchanged' hfuel
      exact ⟨s', q, hrun, hdone.round horder hlocal₃⟩
    have hstop : ∀ {s₃ : Heap K V} {t' : Tree K V}, Zip s₃ c t' → t'.Balanced →
        t'.height = 1 + max n f.sibling.height → t'.inorder = (f.fill t).inorder →
        Local (around (f.fill t) c) s s₃ → Rebalanced (f :: c) t s s₃ :=
      fun hz₃ ht' hheight' horder hlocal₃ =>
        (hz₃.rebalanced ht' (hheight' ▸ hup)).round horder hlocal₃
    unfold Changed at hgo
    rw [hheight] at hgo hstop
    unfold Heap.rebalance
    dsimp only [upper, sideOf]
    rw [hr, hz₀.isRight_ok addr_branch, Run.bind_ok, hz₀.node_ok, Run.bind_ok]
    simp only [Node.of_hDiff, Node.of_parent, hmodify, Run.bind_ok, hsq]
    by_cases hhigh : 2 ≤ u.height - w.height
    · rw [if_pos hhigh]
      obtain ⟨s₂, s₃, p, k, l, q, hstraighten, hrotate, hz₃, hbalanced, hk, horder, hlocal₃⟩ :=
        hz₁.turn_ok hlean (by omega) hu hw
      have horder' : (branch r p k l q).inorder = (f.fill t).inorder := by
        rw [horder, hfill]
        cases r <;> rfl
      have hlocal' : Local (around (f.fill t) c) s s₃ := by
        refine hlocal.trans (hlocal₃.mono fun y hy => ?_)
        rwa [← around_congr horder', around_congr horder]
      rw [hstraighten, Run.bind_ok, hrotate, Run.bind_ok]
      dsimp only
      rw [hz₃.node_ok, Run.bind_ok, Node.of_hDiff, Node.of_parent]
      cases rem with
      | false =>
        simp only [Bool.false_eq_true, false_and, if_false, not_false_eq_true, true_and,
          Bool.false_xor] at hgo hstop ⊢
        split_ifs with hlow
        · exact hgo hz₃ hbalanced (by omega) horder' hlocal'
        · exact ⟨s₃, some p.1, rfl, hstop hz₃ hbalanced (by omega) horder' hlocal'⟩
      | true =>
        simp only [true_and, not_true_eq_false, false_and, if_false, if_true,
          Bool.true_xor] at hgo hstop ⊢
        split_ifs with hlow
        · exact hgo hz₃ hbalanced (by omega) horder' hlocal'
        · exact ⟨s₃, some p.1, rfl, hstop hz₃ hbalanced (by omega) horder' hlocal'⟩
    · rw [if_neg hhigh]
      have hbalanced : (branch r f.label (f.lean + sign r) u w).Balanced := by
        refine balanced_branch.2 ⟨hlean, ?_, ?_, hu, hw⟩ <;>
          rcases sign_cases r with hd | hd <;> rw [hd] at hlean ⊢ <;> omega
      have horder : (branch r f.label (f.lean + sign r) u w).inorder = (f.fill t).inorder := by
        rw [hfill]
        cases r <;> rfl
      have hself := height_branch r f.label (f.lean + sign r) u w
      cases rem with
      | false =>
        simp only [Bool.false_eq_true, and_false, if_false, not_false_eq_true, and_true,
          Bool.false_xor] at hgo hstop ⊢
        split_ifs with hlow
        · exact hgo hz₁ hbalanced (by omega) horder hlocal
        · exact ⟨s₁, some f.label.1, rfl, hstop hz₁ hbalanced (by omega) horder hlocal⟩
      | true =>
        simp only [and_true, not_true_eq_false, and_false, if_false, if_true,
          Bool.true_xor] at hgo hstop ⊢
        split_ifs with hlow
        · exact hgo hz₁ hbalanced (by omega) horder hlocal
        · exact ⟨s₁, some f.label.1, rfl, hstop hz₁ hbalanced (by omega) horder hlocal⟩

end CoreCommon.Btree
