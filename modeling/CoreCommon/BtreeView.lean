import CoreCommon.BtreeMemory

/-! A heap field by field: what its links hold, the parents and balance factors, the keys and
values. In a well-linked tree every node hangs from one link. -/
namespace CoreCommon.Btree
open AvlTree
variable {K V : Type}

namespace Slot

/-- The node that the link is in. -/
def owner : Slot → Option ℕ
  | .top => none
  | .child _ a => some a

def map (g : ℕ → ℕ) : Slot → Slot
  | .top => .top
  | .child d a => .child d (g a)

end Slot

namespace Heap

def content (s : Heap K V) : Slot → Option ℕ
  | .top => s.ptr
  | .child d a => (s.cell a).bind (Node.child d)

def info (s : Heap K V) (a : ℕ) : Option (Option ℕ × Bool × ℤ) :=
  (s.cell a).map fun n => (n.parent, n.root, n.hDiff)

def data (s : Heap K V) (a : ℕ) : Option (K × V) := (s.cell a).map fun n => (n.x, n.v)

/-- The link is in memory. -/
def Has (s : Heap K V) : Slot → Prop
  | .top => True
  | .child _ a => s.data a ≠ none

end Heap

/-- The heap `s'` with the nodes of `s`, its links and parents as given. -/
structure Rewired (s s' : Heap K V) (content : Slot → Option ℕ)
    (info : ℕ → Option (Option ℕ × Bool × ℤ)) : Prop where
  content_eq : s'.content = content
  info_eq : s'.info = info
  data_eq : s'.data = s.data
  fresh_eq : s'.fresh = s.fresh

section fields
variable {s s' s₁ : Heap K V} {a : ℕ} {n : Node K V} {l : Slot} {content : Slot → Option ℕ}
  {info : ℕ → Option (Option ℕ × Bool × ℤ)}

lemma Heap.data_eq (h : s.cell a = some n) : s.data a = some (n.x, n.v) := by
  rw [data, h, Option.map_some]

lemma Heap.info_eq (h : s.cell a = some n) : s.info a = some (n.parent, n.root, n.hDiff) := by
  rw [info, h, Option.map_some]

lemma Heap.content_child (h : s.cell a = some n) (d : Bool) :
    s.content (.child d a) = n.child d := by
  rw [content, h, Option.bind_some]

lemma Heap.exists_cell (h : s.data a ≠ none) : ∃ n, s.cell a = some n := by
  cases hn : s.cell a with
  | none => exact absurd (by rw [data, hn, Option.map_none]) h
  | some n => exact ⟨n, rfl⟩

/-- The fields determine the node. -/
lemma Heap.cell_ext (hcontent : ∀ d, s'.content (.child d a) = s.content (.child d a))
    (hinfo : s'.info a = s.info a) (hdata : s'.data a = s.data a) : s'.cell a = s.cell a := by
  have hleft := hcontent false
  have hright := hcontent true
  simp only [content, info, data] at hleft hright hinfo hdata
  cases h : s.cell a with
  | none =>
    rw [h, Option.map_none, Option.map_eq_none_iff] at hdata
    exact hdata
  | some n =>
    cases h' : s'.cell a with
    | none =>
      rw [h, h'] at hdata
      cases hdata
    | some n' =>
      simp only [h, h', Option.bind_some, Option.map_some, Option.some.injEq, Prod.mk.injEq]
        at hleft hright hinfo hdata
      obtain ⟨parent, root, hDiff, x, v, left, right⟩ := n
      obtain ⟨parent', root', hDiff', x', v', left', right'⟩ := n'
      obtain ⟨rfl, rfl, rfl⟩ := hinfo
      obtain ⟨rfl, rfl⟩ := hdata
      obtain rfl : left' = left := hleft
      obtain rfl : right' = right := hright
      rfl

lemma Rewired.has (h : Rewired s s' content info) : s'.Has l ↔ s.Has l := by
  cases l with
  | top => rfl
  | child d a => exact not_congr (by rw [h.data_eq])

lemma Rewired.trans {content' : Slot → Option ℕ} {info' : ℕ → Option (Option ℕ × Bool × ℤ)}
    (h : Rewired s s₁ content info) (h' : Rewired s₁ s' content' info') :
    Rewired s s' content' info' :=
  ⟨h'.content_eq, h'.info_eq, h'.data_eq.trans h.data_eq, h'.fresh_eq.trans h.fresh_eq⟩

/-! ### Operations -/

lemma Heap.load_eq (h : s.Has l) : s.load l = .ok (s.content l) := by
  cases l with
  | top => rfl
  | child d a =>
    obtain ⟨n, hn⟩ := exists_cell h
    rw [load_child_eq hn, content_child hn]

lemma Heap.store_rewired (h : s.Has l) (p : Option ℕ) :
    ∃ s', s.store l p = .ok s' ∧ Rewired s s' (Function.update s.content l p) s.info := by
  cases l with
  | top =>
    refine ⟨s.withPtr p, rfl, ?_, rfl, rfl, rfl⟩
    funext l
    cases l with
    | top => rw [Function.update_self]; rfl
    | child d a => rw [Function.update_of_ne (by simp)]; rfl
  | child d a =>
    obtain ⟨n, hn⟩ := exists_cell h
    refine ⟨_, store_child_eq hn d p, ?_, ?_, ?_, rfl⟩
    · funext l
      cases l with
      | top => rw [Function.update_of_ne (by simp)]; rfl
      | child d' a' =>
        rw [Function.update_apply, content, cell_withNode]
        by_cases ha : a' = a
        · subst ha
          rw [if_pos rfl, Option.bind_some, content_child hn]
          cases d <;> cases d' <;> simp [Node.child, Node.setChild]
        · rw [if_neg ha, if_neg (by simp [ha])]
          rfl
    · funext y
      rw [info, info, cell_withNode]
      split_ifs with hy
      · rw [hy, hn]
        cases d <;> rfl
      · rfl
    · funext y
      rw [data, data, cell_withNode]
      split_ifs with hy
      · rw [hy, hn]
        cases d <;> rfl
      · rfl

/-- `reset` of a link that holds nothing. -/
lemma Heap.assign_rewired (fuel : ℕ) (h : s.Has l) (hnone : s.content l = none) (p : Option ℕ) :
    ∃ s', s.assign fuel l p = .ok s' ∧ Rewired s s' (Function.update s.content l p) s.info := by
  obtain ⟨s', hs', hrewired⟩ := store_rewired h p
  refine ⟨s', ?_, hrewired⟩
  rw [assign, load_eq h, Run.bind_ok, hs', Run.bind_ok, hnone, destroy_none]

/-- The parents after `if (p) p->parent = a;`. -/
def adopted (info : ℕ → Option (Option ℕ × Bool × ℤ)) (p a : Option ℕ) (y : ℕ) :
    Option (Option ℕ × Bool × ℤ) :=
  if p = some y then (info y).map fun i => (a, i.2) else info y

lemma Heap.adopt_rewired {p : Option ℕ} (h : ∀ b, p = some b → s.data b ≠ none) (a : Option ℕ) :
    ∃ s', s.adopt p a = .ok s' ∧ Rewired s s' s.content (adopted s.info p a) := by
  cases p with
  | none => exact ⟨s, rfl, rfl, funext fun y => (if_neg (by simp)).symm, rfl, rfl⟩
  | some b =>
    obtain ⟨n, hn⟩ := exists_cell (h b rfl)
    refine ⟨_, modify_eq hn _, ?_, ?_, ?_, rfl⟩
    · funext l
      cases l with
      | top => rfl
      | child d y =>
        rw [content, content, cell_withNode]
        split_ifs with hy
        · rw [hy, hn]
          cases d <;> rfl
        · rfl
    · funext y
      rw [info, adopted, info, cell_withNode]
      by_cases hy : y = b
      · rw [if_pos hy, if_pos (by rw [hy]), hy, hn]
        rfl
      · rw [if_neg hy, if_neg (by simpa using Ne.symm hy)]
    · funext y
      rw [data, data, cell_withNode]
      split_ifs with hy
      · rw [hy, hn]
        rfl
      · rfl

end fields

/-! ### Well-linked trees -/

/-- The node `a` of the tree hangs from the link. -/
structure Hangs (s : Heap K V) (t : Tree K V) (a : ℕ) (l : Slot) : Prop where
  parentPtr : s.parentPtr a = .ok l
  content : s.content l = some a
  owner : ∀ q, l.owner = some q → q ∈ addrs t
  parent : ∃ n, s.cell a = some n ∧ n.parent = l.owner

section linked
variable {s : Heap K V} {c : List (Frame (ℕ × K × V))} {t u : Tree K V} {a b : ℕ} {l l' : Slot}

lemma owner_slotOf : (slotOf c).owner = upper c := by cases c <;> rfl

lemma Zip.hangs_focus (hz : Zip s c u) (ha : addr u = some a) : Hangs s (plug c u) a (slotOf c) := by
  obtain ⟨n, hn, hparent, -⟩ := hz.down.top ha
  have hup := hz.up
  rw [ha] at hup
  refine ⟨hz.parentPtr_ok ha, ?_, fun q hq => ?_, n, hn, hparent.trans owner_slotOf.symm⟩
  · cases c with
    | nil => exact hup
    | cons f c =>
      rw [slotOf, Heap.content_child hup.1, Node.of_child]
  · cases c with
    | nil => cases hq
    | cons f c =>
      cases hq
      have hperm := (inorder_plug_perm (f :: c) u).map Prod.fst
      refine hperm.mem_iff.2 ?_
      rw [List.map_append]
      exact List.mem_append_right _ (List.mem_map_of_mem List.mem_cons_self)

lemma exists_focus_addr (ha : a ∈ addrs t) : ∃ c e h l r, t = plug c (.node e h l r) ∧ e.1 = a := by
  obtain ⟨e, he, rfl⟩ := List.mem_map.1 ha
  obtain ⟨c, h, l, r, rfl⟩ := exists_focus he
  exact ⟨c, e, h, l, r, rfl, rfl⟩

lemma Zip.hangs (hz : Zip s [] t) (ha : a ∈ addrs t) : ∃ l, Hangs s t a l := by
  obtain ⟨c, e, h, l, r, rfl, rfl⟩ := exists_focus_addr ha
  exact ⟨_, (zip_plug.1 hz).hangs_focus rfl⟩

/-- What a link of the tree holds hangs from it. -/
lemma Zip.hangs_of_content (hz : Zip s [] t) (howner : ∀ q, l.owner = some q → q ∈ addrs t)
    (hl : s.content l = some a) : a ∈ addrs t ∧ Hangs s t a l := by
  cases l with
  | top =>
    have ha : addr t = some a := hz.up.symm.trans hl
    exact ⟨mem_addrs_of_addr ha, hz.hangs_focus ha⟩
  | child d q =>
    obtain ⟨c, e, h, t₁, t₂, rfl, rfl⟩ := exists_focus_addr (howner q rfl)
    obtain ⟨u, w, hbranch⟩ := node_eq_branch d e h t₁ t₂
    have hfocus := zip_plug.1 hz
    rw [hbranch] at hfocus ⊢
    have hfill : Zip s (⟨d, e, h, w⟩ :: c) u := zip_fill.2 hfocus
    have hu : addr u = some a := by
      rwa [Heap.content_child (owns_branch.1 hfocus.down).1, Node.of_child] at hl
    refine ⟨?_, hfill.hangs_focus hu⟩
    have hperm := (inorder_plug_perm (⟨d, e, h, w⟩ :: c) u).map Prod.fst
    refine hperm.mem_iff.2 ?_
    rw [List.map_append]
    exact List.mem_append_left _ (mem_addrs_of_addr hu)

lemma Hangs.unique (h : Hangs s t a l) (h' : Hangs s t a l') : l = l' :=
  Except.ok.inj (h.parentPtr.symm.trans h'.parentPtr)

/-- No other link of the tree holds the node. -/
lemma Zip.eq_of_content (hz : Zip s [] t) (ha : Hangs s t a l) (l' : Slot)
    (howner : ∀ q, l'.owner = some q → q ∈ addrs t) (hl : s.content l' = some a) : l' = l :=
  (hz.hangs_of_content howner hl).2.unique ha

lemma Zip.owner_mem_addrsUp (hz : Zip s c u) (ha : addr u = some a) (hl : Hangs s (plug c u) a l)
    {q : ℕ} (hq : l.owner = some q) : ∃ f c', c = f :: c' ∧ f.label.1 = q := by
  obtain rfl := hl.unique (hz.hangs_focus ha)
  cases c with
  | nil => cases hq
  | cons f c => exact ⟨f, c, rfl, Option.some.inj hq⟩

lemma Zip.not_mem_addrsUp (hz : Zip s c u) (ha : addr u = some a) : a ∉ addrsUp c := fun h =>
  (List.nodup_append.1 hz.nodup).2.2 a (mem_addrs_of_addr ha) a h rfl

/-- A node does not hang from itself. -/
lemma Zip.owner_ne (hz : Zip s [] t) (ha : a ∈ addrs t) (hl : Hangs s t a l) :
    l.owner ≠ some a := by
  intro hself
  obtain ⟨c, e, h, t₁, t₂, rfl, rfl⟩ := exists_focus_addr ha
  have hfocus := zip_plug.1 hz
  obtain ⟨f, c, rfl, hf⟩ := hfocus.owner_mem_addrsUp rfl hl hself
  refine hfocus.not_mem_addrsUp rfl ?_
  rw [addrsUp_cons, hf]
  exact List.mem_cons_self

/-- Two nodes do not hang from each other. -/
lemma Zip.owner_ne_of_owner (hz : Zip s [] t) (ha : a ∈ addrs t) (hl : Hangs s t a l)
    (hl' : Hangs s t b l') (hab : l.owner = some b) : l'.owner ≠ some a := by
  intro hba
  obtain ⟨c, e, h, t₁, t₂, rfl, rfl⟩ := exists_focus_addr ha
  have hfocus := zip_plug.1 hz
  obtain ⟨f, c, rfl, rfl⟩ := hfocus.owner_mem_addrsUp rfl hl hab
  have hup : Zip s c (f.fill (.node e h t₁ t₂)) := zip_fill.1 hfocus
  obtain ⟨g, c, rfl, hg⟩ := hup.owner_mem_addrsUp addr_branch hl' hba
  refine hfocus.not_mem_addrsUp rfl ?_
  rw [addrsUp_cons, addrsUp_cons, hg]
  simp

end linked
end CoreCommon.Btree
