import Mathlib

/-! Binary trees whose nodes carry a label and a balance factor, and such trees with a hole.
A side is a Boolean, `true` for the right one, so that mirrored cases are one. -/
namespace CoreCommon

inductive AvlTree (α : Type)
  | nil
  | node (label : α) (lean : ℤ) (left right : AvlTree α)

namespace AvlTree
variable {α : Type}

/-- The direction in which a balance factor leans. -/
def sign (d : Bool) : ℤ := if d then 1 else -1

/-- A node by its children on side `d` and on the other side. -/
def branch (d : Bool) (a : α) (h : ℤ) (t u : AvlTree α) : AvlTree α :=
  if d then node a h u t else node a h t u

def inorder : AvlTree α → List α
  | nil => []
  | node a _ l r => l.inorder ++ a :: r.inorder

/-- The same shape and balance factors with other labels. -/
def map {β : Type} (g : α → β) : AvlTree α → AvlTree β
  | nil => nil
  | node a h l r => node (g a) h (l.map g) (r.map g)

def height : AvlTree α → ℤ
  | nil => 0
  | node _ _ l r => 1 + max l.height r.height

/-- All balance factors are right and within one. -/
def Balanced : AvlTree α → Prop
  | nil => True
  | node _ h l r => h = r.height - l.height ∧ -1 ≤ h ∧ h ≤ 1 ∧ l.Balanced ∧ r.Balanced

/-- A node above a hole, which is its child on side `d`. -/
structure Frame (α : Type) where
  d : Bool
  label : α
  lean : ℤ
  sibling : AvlTree α

def Frame.fill (f : Frame α) (t : AvlTree α) : AvlTree α := branch f.d f.label f.lean t f.sibling

/-- The whole tree; the first frame is the lowest. -/
def plug : List (Frame α) → AvlTree α → AvlTree α
  | [], t => t
  | f :: c, t => plug c (f.fill t)

/-- The labels to the left of the hole, in order. -/
def before : List (Frame α) → List α
  | [] => []
  | f :: c => before c ++ if f.d then f.sibling.inorder ++ [f.label] else []

/-- The labels to the right of the hole, in order. -/
def after : List (Frame α) → List α
  | [] => []
  | f :: c => (if f.d then [] else f.label :: f.sibling.inorder) ++ after c

/-- The labels around the hole, from below. -/
def labelsUp : List (Frame α) → List α
  | [] => []
  | f :: c => f.label :: (f.sibling.inorder ++ labelsUp c)

/-- Side on which the hole lies below its parent. -/
def sideOf : List (Frame α) → Bool
  | [] => false
  | f :: _ => f.d

/-- The balance factors around the hole are right for a tree of height `n` there. -/
def BalancedUp : List (Frame α) → ℤ → Prop
  | [], _ => True
  | f :: c, n => f.lean = sign f.d * (n - f.sibling.height) ∧ -1 ≤ f.lean ∧ f.lean ≤ 1 ∧
      f.sibling.Balanced ∧ BalancedUp c (1 + max n f.sibling.height)

/-! ### Shapes -/

lemma sign_not (d : Bool) : sign (!d) = -sign d := by cases d <;> rfl

lemma sign_cases (d : Bool) : sign d = 1 ∨ sign d = -1 := by cases d <;> simp [sign]

lemma branch_not (d : Bool) (a : α) (h : ℤ) (t u : AvlTree α) :
    branch (!d) a h t u = branch d a h u t := by cases d <;> rfl

lemma node_eq_branch (d : Bool) (a : α) (h : ℤ) (l r : AvlTree α) :
    ∃ t u, node a h l r = branch d a h t u := by
  cases d
  · exact ⟨l, r, rfl⟩
  · exact ⟨r, l, rfl⟩

/-- Induction with a side fixed. -/
@[elab_as_elim]
lemma branch_induction (d : Bool) {motive : AvlTree α → Prop} (nil : motive nil)
    (branch : ∀ a h t u, motive t → motive u → motive (branch d a h t u)) (t : AvlTree α) :
    motive t := by
  induction t with
  | nil => exact nil
  | node a h l r ihl ihr =>
    cases d
    · exact branch a h l r ihl ihr
    · exact branch a h r l ihr ihl

@[simp] lemma height_branch (d : Bool) (a : α) (h : ℤ) (t u : AvlTree α) :
    (branch d a h t u).height = 1 + max t.height u.height := by
  cases d
  · rfl
  · exact congrArg (1 + ·) (max_comm _ _)

lemma balanced_branch {d : Bool} {a : α} {h : ℤ} {t u : AvlTree α} :
    (branch d a h t u).Balanced ↔
      h = sign d * (t.height - u.height) ∧ -1 ≤ h ∧ h ≤ 1 ∧ t.Balanced ∧ u.Balanced := by
  cases d
  · simp [branch, Balanced, sign]
  · simp only [branch, Balanced, sign, if_true, one_mul]
    tauto

lemma height_nonneg (t : AvlTree α) : 0 ≤ t.height := by
  induction t with
  | nil => exact le_rfl
  | node a h l r ihl ihr =>
    rw [height]
    omega

lemma inorder_map {β : Type} (g : α → β) (t : AvlTree α) :
    (t.map g).inorder = t.inorder.map g := by
  induction t with
  | nil => rfl
  | node a h l r ihl ihr => simp [map, inorder, ihl, ihr]

lemma map_map {β γ : Type} (g : α → β) (g' : β → γ) (t : AvlTree α) :
    (t.map g).map g' = t.map (g' ∘ g) := by
  induction t with
  | nil => rfl
  | node a h l r ihl ihr => simp [map, ihl, ihr]

lemma map_congr {β : Type} {g g' : α → β} {t : AvlTree α} (h : ∀ a ∈ t.inorder, g a = g' a) :
    t.map g = t.map g' := by
  induction t with
  | nil => rfl
  | node a d l r ihl ihr =>
    simp only [inorder, List.mem_append, List.mem_cons] at h
    rw [map, map, h a (.inr (.inl rfl)), ihl fun x hx => h x (.inl hx),
      ihr fun x hx => h x (.inr (.inr hx))]

lemma map_eq_self {g : α → α} {t : AvlTree α} (h : ∀ a ∈ t.inorder, g a = a) : t.map g = t := by
  induction t with
  | nil => rfl
  | node a d l r ihl ihr =>
    simp only [inorder, List.mem_append, List.mem_cons] at h
    rw [map, h a (.inr (.inl rfl)), ihl fun x hx => h x (.inl hx), ihr fun x hx => h x (.inr (.inr hx))]

lemma inorder_plug (c : List (Frame α)) (t : AvlTree α) :
    (plug c t).inorder = before c ++ t.inorder ++ after c := by
  induction c generalizing t with
  | nil => simp [plug, before, after]
  | cons f c ih =>
    rw [plug, ih]
    obtain ⟨d, a, h, s⟩ := f
    cases d <;> simp [before, after, Frame.fill, branch, inorder]

lemma before_append (c c' : List (Frame α)) : before (c ++ c') = before c' ++ before c := by
  induction c with
  | nil => simp [before]
  | cons f c ih => rw [List.cons_append, before, before, ih, List.append_assoc]

lemma inorder_fill_perm (f : Frame α) (t : AvlTree α) :
    (f.fill t).inorder.Perm (f.label :: (t.inorder ++ f.sibling.inorder)) := by
  obtain ⟨d, a, h, s⟩ := f
  cases d
  · exact List.perm_middle
  · exact List.perm_middle.trans (List.Perm.cons a List.perm_append_comm)

lemma inorder_append_labelsUp_perm (f : Frame α) (c : List (Frame α)) (t : AvlTree α) :
    (t.inorder ++ labelsUp (f :: c)).Perm ((f.fill t).inorder ++ labelsUp c) := by
  refine List.perm_middle.trans (List.Perm.trans ?_ ((inorder_fill_perm f t).symm.append_right _))
  rw [List.cons_append, List.append_assoc]

lemma inorder_plug_perm (c : List (Frame α)) (t : AvlTree α) :
    (plug c t).inorder.Perm (t.inorder ++ labelsUp c) := by
  induction c generalizing t with
  | nil => rw [plug, labelsUp, List.append_nil]
  | cons f c ih => exact (ih _).trans (inorder_append_labelsUp_perm f c t).symm

lemma before_of_left {c : List (Frame α)} (hleft : ∀ f ∈ c, f.d = false) : before c = [] := by
  induction c with
  | nil => rfl
  | cons f c ih =>
    rw [before, hleft f List.mem_cons_self, ih fun g hg => hleft g (List.mem_cons_of_mem _ hg)]
    rfl

/-- The label of a frame is of no matter for the balance. -/
lemma BalancedUp.relabel {c c' : List (Frame α)} {d : Bool} {a b : α} {h n : ℤ} {t : AvlTree α}
    (hc : BalancedUp (c' ++ ⟨d, a, h, t⟩ :: c) n) : BalancedUp (c' ++ ⟨d, b, h, t⟩ :: c) n := by
  induction c' generalizing n with
  | nil => exact hc
  | cons f c' ih => exact ⟨hc.1, hc.2.1, hc.2.2.1, hc.2.2.2.1, ih hc.2.2.2.2⟩

lemma balanced_plug {c : List (Frame α)} {t : AvlTree α} :
    (plug c t).Balanced ↔ t.Balanced ∧ BalancedUp c t.height := by
  induction c generalizing t with
  | nil => simp [plug, BalancedUp]
  | cons f c ih =>
    rw [plug, ih, Frame.fill, balanced_branch, height_branch, BalancedUp]
    tauto

lemma plug_append (c c' : List (Frame α)) (t : AvlTree α) :
    plug (c ++ c') t = plug c' (plug c t) := by
  induction c generalizing t with
  | nil => rfl
  | cons f c ih => exact ih _

/-! ### Rotations -/

/-- The rotation that lifts the child `p` on side `d` above its parent `a`. -/
lemma inorder_rotate (d : Bool) (a p : α) (h hp h' hp' : ℤ) (t u w : AvlTree α) :
    (branch d p hp' t (branch d a h' u w)).inorder =
      (branch d a h (branch d p hp t u) w).inorder := by
  cases d <;> simp [branch, inorder]

/-- The balance factors after a rotation, from those before alone. -/
lemma lean_rotate {d : Bool} {h hp h' hp' t u w : ℤ} (hh : h = sign d * (1 + max t u - w))
    (hhp : hp = sign d * (t - u))
    (hh' : h' = if sign d * hp ≤ 0 then h - sign d else h - (hp + sign d))
    (hhp' : hp' = if 0 ≤ sign d * h' then hp - sign d else hp + (h' - sign d)) :
    h' = sign d * (u - w) ∧ hp' = sign d * (t - (1 + max u w)) := by
  rcases sign_cases d with hd | hd <;> rw [hd] at hh hhp hh' hhp' ⊢ <;>
    split_ifs at hh' hhp' <;> omega

/-! ### Positions -/

/-- Every label is at the top of some subtree. -/
lemma exists_focus {t : AvlTree α} {a : α} (ha : a ∈ t.inorder) :
    ∃ c h l r, t = plug c (node a h l r) := by
  induction t with
  | nil => cases ha
  | node b h l r ihl ihr =>
    rcases List.mem_append.1 ha with ha | ha
    · obtain ⟨c, h', l', r', rfl⟩ := ihl ha
      exact ⟨c ++ [⟨false, b, h, r⟩], h', l', r', by rw [plug_append]; rfl⟩
    · rcases List.mem_cons.1 ha with rfl | ha
      · exact ⟨[], h, l, r, rfl⟩
      · obtain ⟨c, h', l', r', rfl⟩ := ihr ha
        exact ⟨c ++ [⟨true, b, h, l⟩], h', l', r', by rw [plug_append]; rfl⟩

/-- The same for a position in the order. -/
lemma exists_focus_at {t : AvlTree α} {a : α} {i : ℕ} (ha : t.inorder[i]? = some a) :
    ∃ c h l r, t = plug c (node a h l r) ∧ (before c).length + l.inorder.length = i := by
  induction t generalizing i with
  | nil => cases ha
  | node b h l r ihl ihr =>
    rcases Nat.lt_trichotomy i l.inorder.length with hlt | rfl | hgt
    · rw [inorder, List.getElem?_append_left hlt] at ha
      obtain ⟨c, h', l', r', rfl, rfl⟩ := ihl ha
      exact ⟨c ++ [⟨false, b, h, r⟩], h', l', r', by rw [plug_append]; rfl, by
        rw [before_append]; simp [before]⟩
    · rw [inorder, List.getElem?_append_right (Nat.le_refl _), Nat.sub_self] at ha
      obtain rfl : b = a := Option.some.inj ha
      exact ⟨[], h, l, r, rfl, Nat.zero_add _⟩
    · rw [inorder, List.getElem?_append_right (Nat.le_of_lt hgt)] at ha
      obtain ⟨j, hj⟩ : ∃ j, i - l.inorder.length = j + 1 := ⟨i - l.inorder.length - 1, by omega⟩
      rw [hj, List.getElem?_cons_succ] at ha
      obtain ⟨c, h', l', r', rfl, hlen⟩ := ihr ha
      refine ⟨c ++ [⟨true, b, h, l⟩], h', l', r', by rw [plug_append]; rfl, ?_⟩
      rw [before_append]
      simp [before]
      omega

lemma length_le_plug (c : List (Frame α)) (t : AvlTree α) :
    t.inorder.length + c.length ≤ (plug c t).inorder.length := by
  induction c generalizing t with
  | nil => exact le_rfl
  | cons f c ih =>
    have hfill := (inorder_fill_perm f t).length_eq
    rw [List.length_cons, List.length_append] at hfill
    have hup := ih (f.fill t)
    rw [plug, List.length_cons]
    omega

end AvlTree

/-! ### Order -/

/-- A strict weak order. -/
structure StrictWeak {κ : Type} (cmp : κ → κ → Bool) : Prop where
  irrefl : ∀ x, cmp x x = false
  trans : ∀ {x y z}, cmp x y = true → cmp y z = true → cmp x z = true
  incomp : ∀ {x y z}, cmp x y = false → cmp y x = false → cmp y z = false → cmp z y = false →
    cmp x z = false ∧ cmp z x = false

namespace StrictWeak
variable {κ : Type} {cmp : κ → κ → Bool} {x y z : κ}

lemma asymm (hcmp : StrictWeak cmp) (h : cmp x y = true) : cmp y x = false := by
  by_contra hne
  have := hcmp.trans h (Bool.eq_true_of_not_eq_false hne)
  rw [hcmp.irrefl] at this
  cases this

/-- Not being less is transitive. -/
lemma not_less_trans (hcmp : StrictWeak cmp) (hxy : cmp y x = false) (hyz : cmp z y = false) :
    cmp z x = false := by
  by_contra hne
  have hzx := Bool.eq_true_of_not_eq_false hne
  have hxy' : cmp x y = false := by
    by_contra h
    exact Bool.false_ne_true (hyz.symm.trans (hcmp.trans hzx (Bool.eq_true_of_not_eq_false h)))
  have hyz' : cmp y z = false := by
    by_contra h
    exact Bool.false_ne_true (hxy.symm.trans (hcmp.trans (Bool.eq_true_of_not_eq_false h) hzx))
  exact hne (hcmp.incomp hxy' hxy hyz' hyz).2

lemma less_of_le_of_less (hcmp : StrictWeak cmp) (hxy : cmp y x = false) (hyz : cmp y z = true) :
    cmp x z = true := by
  by_contra hne
  have := hcmp.not_less_trans (Bool.eq_false_of_not_eq_true hne) hxy
  exact Bool.false_ne_true (this.symm.trans hyz)

lemma less_of_less_of_le (hcmp : StrictWeak cmp) (hxy : cmp x y = true) (hyz : cmp z y = false) :
    cmp x z = true := by
  by_contra hne
  have := hcmp.not_less_trans hyz (Bool.eq_false_of_not_eq_true hne)
  exact Bool.false_ne_true (this.symm.trans hxy)

lemma less_of_less_of_not_less (hcmp : StrictWeak cmp) (hxy : cmp x y = true)
    (hyz : cmp z y = false) : cmp z x = false := by
  by_contra hne
  exact Bool.false_ne_true (hyz.symm.trans (hcmp.trans (Bool.eq_true_of_not_eq_false hne) hxy))

end StrictWeak

namespace AvlTree
variable {α κ : Type} {cmp : κ → κ → Bool} {key : α → κ} {k : κ}

/-- No label is before one with a smaller key. -/
def Sorted (cmp : κ → κ → Bool) (key : α → κ) (l : List α) : Prop :=
  l.Pairwise fun a b => cmp (key b) (key a) = false

/-- The key belongs between the two lists. -/
def Between (cmp : κ → κ → Bool) (key : α → κ) (k : κ) (l r : List α) : Prop :=
  (∀ a ∈ l, cmp k (key a) = false) ∧ ∀ a ∈ r, cmp (key a) k = false

lemma Sorted.insert {l r : List α} {a : α} (h : Sorted cmp key (l ++ r))
    (hbetween : Between cmp key (key a) l r) : Sorted cmp key (l ++ a :: r) := by
  unfold Sorted at h ⊢
  rw [List.pairwise_append] at h ⊢
  refine ⟨h.1, List.pairwise_cons.2 ⟨hbetween.2, h.2.1⟩, fun x hx y hy => ?_⟩
  rcases List.mem_cons.1 hy with rfl | hy
  · exact hbetween.1 x hx
  · exact h.2.2 x hx y hy

end AvlTree
end CoreCommon
