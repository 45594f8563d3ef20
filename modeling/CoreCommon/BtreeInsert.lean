import CoreCommon.BtreeBalance

/-! Finding a key and inserting a node. -/
namespace CoreCommon.Btree
open AvlTree
variable {K V : Type} {cmp : K → K → Bool} {s : Heap K V} {c : List (Frame (ℕ × K × V))} {k : K}

abbrev keyOf (e : ℕ × K × V) : K := e.2.1

/-! ### Finding -/

section reading
variable {t : Tree K V} {q : Option ℕ} {b : Bool} {fuel : ℕ}

/-- The first label that is not less than `k`, in order, in a tree and then in `a`. -/
def firstFrom (cmp : K → K → Bool) (k : K) (t : Tree K V) (a : ℕ × K × V) : ℕ × K × V :=
  (t.inorder.find? fun e => !cmp (keyOf e) k).getD a

lemma firstFrom_equal {e : ℕ × K × V} {h : ℤ} {l r : Tree K V} (a : ℕ × K × V)
    (he : cmp (keyOf e) k = false) : firstFrom cmp k (.node e h l r) a = firstFrom cmp k l e := by
  unfold firstFrom
  rw [inorder, List.find?_append, List.find?_cons_of_pos (by rw [he]; rfl)]
  cases l.inorder.find? fun e => !cmp (keyOf e) k <;> rfl

lemma firstFrom_less (hcmp : StrictWeak cmp) {e : ℕ × K × V} {h : ℤ} {l r : Tree K V}
    (a : ℕ × K × V) (hsorted : Sorted cmp keyOf (inorder (.node e h l r)))
    (he : cmp (keyOf e) k = true) : firstFrom cmp k (.node e h l r) a = firstFrom cmp k r a := by
  have hl : l.inorder.find? (fun e => !cmp (keyOf e) k) = none := by
    rw [List.find?_eq_none]
    intro x hx
    have hxe := (List.pairwise_append.1 hsorted).2.2 x hx e List.mem_cons_self
    simp [hcmp.less_of_le_of_less hxe he]
  unfold firstFrom
  rw [inorder, List.find?_append, hl, List.find?_cons_of_neg (by rw [he]; simp)]
  rfl

lemma skipEqual_ok (ht : Owns s t q b) (hfuel : t.inorder.length ≤ fuel) (a : ℕ × K × V) :
    ∃ a' t' q' b', s.skipEqual cmp k fuel a.1 (addr t) = .ok (a'.1, addr t') ∧ Owns s t' q' b' ∧
      firstFrom cmp k t' a' = firstFrom cmp k t a ∧ t'.inorder.Sublist t.inorder ∧
      ∀ e h l r, t' = .node e h l r → cmp k (keyOf e) = false → cmp (keyOf e) k = true := by
  induction t generalizing q b fuel a with
  | nil => exact ⟨a, .nil, q, b, by cases fuel <;> rfl, trivial, rfl, List.Sublist.refl _, nofun⟩
  | node e h l r ihl ihr =>
    rw [inorder, List.length_append, List.length_cons] at hfuel
    obtain ⟨fuel, rfl⟩ : ∃ m, fuel = m + 1 := ⟨fuel - 1, by omega⟩
    unfold Heap.skipEqual
    dsimp only [addr]
    rw [Heap.node_eq ht.1, Run.bind_ok]
    dsimp only
    split_ifs with heq
    · simp only [Bool.and_eq_true, Bool.not_eq_true'] at heq
      obtain ⟨a', t', q', b', hrun, ht', hfirst, hsub, htop⟩ := ihl ht.2.1 (show _ ≤ fuel by omega) e
      refine ⟨a', t', q', b', hrun, ht', hfirst.trans (firstFrom_equal a heq.2).symm,
        hsub.trans (List.sublist_append_left _ _), htop⟩
    · refine ⟨a, .node e h l r, q, b, rfl, ht, rfl, List.Sublist.refl _, ?_⟩
      rintro _ _ _ _ ⟨⟩ hlt
      rw [hlt] at heq
      simpa using heq

lemma skipLess_ok (hcmp : StrictWeak cmp) (ht : Owns s t q b) (hfuel : t.inorder.length ≤ fuel)
    (hsorted : Sorted cmp keyOf t.inorder) :
    ∃ t' q' b', s.skipLess cmp k fuel (addr t) = .ok (addr t') ∧ Owns s t' q' b' ∧
      (∀ a, firstFrom cmp k t' a = firstFrom cmp k t a) ∧ t'.inorder.Sublist t.inorder ∧
      ∀ e h l r, t = .node e h l r → cmp (keyOf e) k = true →
        t'.inorder.length < t.inorder.length := by
  induction t generalizing q b fuel with
  | nil => exact ⟨.nil, q, b, by cases fuel <;> rfl, trivial, fun _ => rfl, List.Sublist.refl _, nofun⟩
  | node e h l r ihl ihr =>
    rw [inorder, List.length_append, List.length_cons] at hfuel
    obtain ⟨fuel, rfl⟩ : ∃ m, fuel = m + 1 := ⟨fuel - 1, by omega⟩
    have hr : r.inorder.Sublist (inorder (.node e h l r)) :=
      (List.sublist_cons_self _ _).trans (List.sublist_append_right _ _)
    unfold Heap.skipLess
    dsimp only [addr]
    rw [Heap.node_eq ht.1, Run.bind_ok]
    dsimp only
    split_ifs with hless
    · obtain ⟨t', q', b', hrun, ht', hfirst, hsub, -⟩ := ihr ht.2.2 (show _ ≤ fuel by omega)
        (hsorted.sublist hr)
      refine ⟨t', q', b', hrun, ht', fun a => (hfirst a).trans
        (firstFrom_less hcmp a hsorted hless).symm, hsub.trans hr, fun _ _ _ _ _ _ => ?_⟩
      have hle := hsub.length_le
      rw [inorder, List.length_append, List.length_cons]
      omega
    · refine ⟨.node e h l r, q, b, rfl, ht, fun _ => rfl, List.Sublist.refl _, ?_⟩
      rintro _ _ _ _ ⟨⟩ hless'
      exact absurd hless' hless

/-- Among equal keys the loops of `find` go to the first one. -/
lemma firstEqual_ok (hcmp : StrictWeak cmp) {rounds : ℕ} (ht : Owns s t q b)
    (hfuel : t.inorder.length ≤ fuel) (hrounds : t.inorder.length ≤ rounds)
    (hsorted : Sorted cmp keyOf t.inorder) (hle : ∀ e ∈ t.inorder, cmp k (keyOf e) = false)
    (a : ℕ × K × V) :
    s.firstEqual cmp k fuel rounds a.1 (addr t) = .ok (firstFrom cmp k t a).1 := by
  induction rounds generalizing t q b a with
  | zero =>
    cases t with
    | nil => rfl
    | node e h l r =>
      rw [inorder, List.length_append, List.length_cons] at hrounds
      omega
  | succ rounds ih =>
    cases t with
    | nil => rfl
    | node e h l r =>
      obtain ⟨a₁, t₁, q₁, b₁, hskip₁, ht₁, hfirst₁, hsub₁, htop₁⟩ :=
        skipEqual_ok (k := k) ht hfuel a
      have hsorted₁ := hsorted.sublist hsub₁
      have hlen₁ := hsub₁.length_le
      obtain ⟨t₂, q₂, b₂, hskip₂, ht₂, hfirst₂, hsub₂, hless₂⟩ :=
        skipLess_ok (k := k) hcmp ht₁ (show _ ≤ fuel by omega) hsorted₁
      have hlen₂ := hsub₂.length_le
      -- the two inner loops together get past the top node
      have hshort : t₂.inorder.length < (inorder (.node e h l r)).length := by
        cases t₁ with
        | nil =>
          rw [inorder, List.length_nil] at hlen₂
          rw [inorder, List.length_append, List.length_cons]
          omega
        | node e' h' l' r' =>
          have hmem : e' ∈ inorder (.node e' h' l' r') :=
            List.mem_append_right _ List.mem_cons_self
          exact (hless₂ e' h' l' r' rfl (htop₁ e' h' l' r' rfl (hle e' (hsub₁.mem hmem)))).trans_le
            hlen₁
      have htop : addr (.node e h l r) = some e.1 := rfl
      rw [htop] at hskip₁ ⊢
      unfold Heap.firstEqual
      rw [hskip₁, Run.bind_ok]
      dsimp only
      rw [hskip₂, Run.bind_ok, ih ht₂ (by omega) (by omega) (hsorted₁.sublist hsub₂)
        (fun x hx => hle x (hsub₁.mem (hsub₂.mem hx))), hfirst₂, hfirst₁]

end reading

section focus
variable {t : Tree K V} {fuel : ℕ}

/-- The key belongs into the hole. -/
def Around (cmp : K → K → Bool) (k : K) (c : List (Frame (ℕ × K × V))) : Prop :=
  Between cmp keyOf k (before c) (after c)

lemma around_nil : Around cmp k ([] : List (Frame (ℕ × K × V))) := by
  simp [Around, Between, before, after]

/-- The labels around the hole are strictly less and strictly greater than the key. -/
def Apart (cmp : K → K → Bool) (k : K) (c : List (Frame (ℕ × K × V))) : Prop :=
  (∀ x ∈ before c, cmp (keyOf x) k = true) ∧ ∀ x ∈ after c, cmp k (keyOf x) = true

lemma apart_nil : Apart cmp k ([] : List (Frame (ℕ × K × V))) := by
  simp [Apart, before, after]

lemma sorted_below {c : List (Frame (ℕ × K × V))} {e : ℕ × K × V} {h : ℤ} {l r : Tree K V}
    (hsorted : Sorted cmp keyOf (plug c (.node e h l r)).inorder) :
    (∀ x ∈ before c ++ l.inorder, cmp (keyOf e) (keyOf x) = false) ∧
      ∀ x ∈ r.inorder ++ after c, cmp (keyOf x) (keyOf e) = false := by
  rw [inorder_plug, inorder, List.append_assoc, List.append_assoc, List.cons_append,
    ← List.append_assoc] at hsorted
  have hpair := List.pairwise_append.1 hsorted
  exact ⟨fun x hx => hpair.2.2 x hx e List.mem_cons_self, (List.pairwise_cons.1 hpair.2.1).1⟩

/-- Left of a node with a greater key. -/
lemma Around.left (hcmp : StrictWeak cmp) {e : ℕ × K × V} {h : ℤ} {l r : Tree K V}
    (hc : Around cmp k c) (hsorted : Sorted cmp keyOf (plug c (.node e h l r)).inorder)
    (hlt : cmp k (keyOf e) = true) : Around cmp k (⟨false, e, h, r⟩ :: c) := by
  obtain ⟨-, hright⟩ := sorted_below hsorted
  refine ⟨fun x hx => hc.1 x ?_, fun x hx => ?_⟩
  · simpa [before] using hx
  · rcases List.mem_cons.1 (by simpa [after] using hx : x ∈ e :: (r.inorder ++ after c)) with
      rfl | hx
    · exact hcmp.asymm hlt
    · exact hcmp.less_of_less_of_not_less hlt (hright x hx)

/-- Right of a node with a key that is not greater. -/
lemma Around.right (hcmp : StrictWeak cmp) {e : ℕ × K × V} {h : ℤ} {l r : Tree K V}
    (hsorted : Sorted cmp keyOf (plug c (.node e h l r)).inorder)
    (hle : cmp k (keyOf e) = false) (hc : ∀ x ∈ after c, cmp (keyOf x) k = false) :
    Around cmp k (⟨true, e, h, l⟩ :: c) := by
  obtain ⟨hleft, -⟩ := sorted_below hsorted
  refine ⟨fun x hx => ?_, fun x hx => hc x ?_⟩
  · rcases List.mem_append.1 (by simpa [before] using hx : x ∈ (before c ++ l.inorder) ++ [e]) with
      hx | hx
    · exact hcmp.not_less_trans (hleft x hx) hle
    · exact List.mem_singleton.1 hx ▸ hle
  · simpa [after] using hx

/-- After an equal key. -/
lemma Around.right_equal (hcmp : StrictWeak cmp) {e : ℕ × K × V} {h : ℤ} {l r : Tree K V}
    (hsorted : Sorted cmp keyOf (plug c (.node e h l r)).inorder)
    (hle : cmp k (keyOf e) = false) (hge : cmp (keyOf e) k = false) :
    Around cmp k (⟨true, e, h, l⟩ :: c) :=
  .right hcmp hsorted hle fun x hx =>
    hcmp.not_less_trans hge ((sorted_below hsorted).2 x (List.mem_append_right _ hx))

lemma Apart.left (hcmp : StrictWeak cmp) {e : ℕ × K × V} {h : ℤ} {l r : Tree K V}
    (hc : Apart cmp k c) (hsorted : Sorted cmp keyOf (plug c (.node e h l r)).inorder)
    (hlt : cmp k (keyOf e) = true) : Apart cmp k (⟨false, e, h, r⟩ :: c) := by
  obtain ⟨-, hright⟩ := sorted_below hsorted
  refine ⟨fun x hx => hc.1 x ?_, fun x hx => ?_⟩
  · simpa [before] using hx
  · rcases List.mem_cons.1 (by simpa [after] using hx : x ∈ e :: (r.inorder ++ after c)) with
      rfl | hx
    · exact hlt
    · exact hcmp.less_of_less_of_le hlt (hright x hx)

lemma Apart.right (hcmp : StrictWeak cmp) {e : ℕ × K × V} {h : ℤ} {l r : Tree K V}
    (hc : Apart cmp k c) (hsorted : Sorted cmp keyOf (plug c (.node e h l r)).inorder)
    (hgt : cmp (keyOf e) k = true) : Apart cmp k (⟨true, e, h, l⟩ :: c) := by
  obtain ⟨hleft, -⟩ := sorted_below hsorted
  refine ⟨fun x hx => ?_, fun x hx => hc.2 x ?_⟩
  · rcases List.mem_append.1 (by simpa [before] using hx : x ∈ (before c ++ l.inorder) ++ [e]) with
      hx | hx
    · exact hcmp.less_of_le_of_less (hleft x hx) hgt
    · exact List.mem_singleton.1 hx ▸ hgt
  · simpa [after] using hx

/-- Where the first loop of `find` stops. -/
structure Stopped (cmp : K → K → Bool) (k : K) (e : ℕ × K × V) (l r : Tree K V) : Prop where
  left : cmp k (keyOf e) = true → l = .nil
  right : cmp (keyOf e) k = true → r = .nil

/-- The loop has gone down from `t` to `e`, and the key belongs below or next to `e`. -/
structure Descended (cmp : K → K → Bool) (k : K) (s : Heap K V) (c : List (Frame (ℕ × K × V)))
    (t : Tree K V) (c' : List (Frame (ℕ × K × V))) (e : ℕ × K × V) (h : ℤ) (l r : Tree K V) :
    Prop where
  zip : Zip s c' (.node e h l r)
  plug_eq : plug c' (.node e h l r) = plug c t
  length_le : (inorder (.node e h l r)).length ≤ t.inorder.length
  around : Around cmp k c'
  stopped : Stopped cmp k e l r
  apart : Apart cmp k c → Apart cmp k c'

lemma Descended.up {c₁ c' : List (Frame (ℕ × K × V))} {t₁ l r : Tree K V} {e : ℕ × K × V} {h : ℤ}
    (hd : Descended cmp k s c₁ t₁ c' e h l r) (hplug : plug c₁ t₁ = plug c t)
    (hlen : t₁.inorder.length ≤ t.inorder.length) (hapart : Apart cmp k c → Apart cmp k c₁) :
    Descended cmp k s c t c' e h l r :=
  ⟨hd.zip, hd.plug_eq.trans hplug, hd.length_le.trans hlen, hd.around, hd.stopped,
    fun h => hd.apart (hapart h)⟩

lemma descend_ok (hcmp : StrictWeak cmp) (hz : Zip s c t) {a : ℕ} (ha : addr t = some a)
    (hfuel : t.inorder.length ≤ fuel) (hsorted : Sorted cmp keyOf (plug c t).inorder)
    (hc : Around cmp k c) :
    ∃ c' e h l r, s.descend cmp k fuel a = .ok (e.1, !cmp k (keyOf e) && !cmp (keyOf e) k) ∧
      Descended cmp k s c t c' e h l r := by
  induction t generalizing c fuel a with
  | nil => cases ha
  | node e h l r ihl ihr =>
    cases ha
    have hlen : (inorder (.node e h l r)).length = l.inorder.length + (r.inorder.length + 1) := by
      rw [inorder, List.length_append, List.length_cons]
    obtain ⟨fuel, rfl⟩ : ∃ m, fuel = m + 1 := ⟨fuel - 1, by omega⟩
    have hl : Zip s (⟨false, e, h, r⟩ :: c) l := zip_fill.2 hz
    have hr : Zip s (⟨true, e, h, l⟩ :: c) r := zip_fill.2 hz
    -- the two ways on
    have hleft : ∀ b, addr l = some b → cmp k (keyOf e) = true → ∃ c' e' h' l' r',
        s.descend cmp k fuel b = .ok (e'.1, !cmp k (keyOf e') && !cmp (keyOf e') k) ∧
        Descended cmp k s c (.node e h l r) c' e' h' l' r' := by
      intro b hb hlt
      obtain ⟨c', e', h', l', r', hrun, hd⟩ :=
        ihl hl hb (show _ ≤ fuel by omega) hsorted (hc.left hcmp hsorted hlt)
      exact ⟨c', e', h', l', r', hrun, hd.up rfl (by omega) fun hap => hap.left hcmp hsorted hlt⟩
    have hright : ∀ b, addr r = some b → cmp (keyOf e) k = true → ∃ c' e' h' l' r',
        s.descend cmp k fuel b = .ok (e'.1, !cmp k (keyOf e') && !cmp (keyOf e') k) ∧
        Descended cmp k s c (.node e h l r) c' e' h' l' r' := by
      intro b hb hgt
      obtain ⟨c', e', h', l', r', hrun, hd⟩ :=
        ihr hr hb (show _ ≤ fuel by omega) hsorted (.right hcmp hsorted (hcmp.asymm hgt) hc.2)
      exact ⟨c', e', h', l', r', hrun, hd.up rfl (by omega) fun hap => hap.right hcmp hsorted hgt⟩
    have hstop : Stopped cmp k e l r → ∃ c' e' h' l' r',
        (Except.ok (e.1, !cmp k (keyOf e) && !cmp (keyOf e) k) : Run (ℕ × Bool)) =
          .ok (e'.1, !cmp k (keyOf e') && !cmp (keyOf e') k) ∧
        Descended cmp k s c (.node e h l r) c' e' h' l' r' := fun hstop =>
      ⟨c, e, h, l, r, rfl, hz, rfl, Nat.le_refl _, hc, hstop, id⟩
    unfold Heap.descend
    rw [Heap.node_eq hz.down.1, Run.bind_ok]
    dsimp only
    cases hla : addr l with
    | none =>
      have hl' : cmp k (keyOf e) = true → l = .nil := fun _ => addr_eq_none.1 hla
      cases hra : addr r with
      | none => exact hstop ⟨hl', fun _ => addr_eq_none.1 hra⟩
      | some b =>
        dsimp only
        split_ifs with hgt
        · exact hright b hra hgt
        · exact hstop ⟨hl', fun h => absurd h hgt⟩
    | some a =>
      cases hra : addr r with
      | none =>
        dsimp only
        split_ifs with hlt
        · exact hleft a hla hlt
        · exact hstop ⟨fun h => absurd h hlt, fun _ => addr_eq_none.1 hra⟩
      | some b =>
        dsimp only
        split_ifs with hlt hgt
        · exact hleft a hla hlt
        · exact hright b hra hgt
        · exact hstop ⟨fun h => absurd h hlt, fun h => absurd h hgt⟩

/-- The node that `find` returns: all before it is smaller, and what follows a node with another
key is greater than the key. -/
structure Leads (cmp : K → K → Bool) (k : K) (c : List (Frame (ℕ × K × V))) (e : ℕ × K × V)
    (l r : Tree K V) : Prop where
  less : ∀ x ∈ before c ++ l.inorder, cmp (keyOf x) k = true
  greater : cmp k (keyOf e) = true ∨ cmp (keyOf e) k = true →
    ∀ x ∈ r.inorder ++ after c, cmp k (keyOf x) = true

/-- Beside the position of the key. -/
lemma Stopped.leads (hcmp : StrictWeak cmp) {e : ℕ × K × V} {h : ℤ} {l r : Tree K V}
    (hsorted : Sorted cmp keyOf (plug c (.node e h l r)).inorder) (hstop : Stopped cmp k e l r)
    (hne : cmp k (keyOf e) = true ∨ cmp (keyOf e) k = true) (hc : Apart cmp k c) :
    Leads cmp k c e l r := by
  obtain ⟨hleft, hright⟩ := sorted_below hsorted
  rcases hne with hlt | hgt
  · obtain rfl := hstop.left hlt
    exact ⟨fun x hx => hc.1 x (by simpa [inorder] using hx),
      fun _ x hx => hcmp.less_of_less_of_le hlt (hright x hx)⟩
  · obtain rfl := hstop.right hgt
    exact ⟨fun x hx => hcmp.less_of_le_of_less (hleft x hx) hgt,
      fun _ x hx => hc.2 x (by simpa [inorder] using hx)⟩

/-- From an equal node the other loops go to the first one. -/
lemma firstEqual_leads (hcmp : StrictWeak cmp) {e : ℕ × K × V} {h : ℤ} {l r : Tree K V}
    (hz : Zip s c (.node e h l r)) (hsorted : Sorted cmp keyOf (plug c (.node e h l r)).inorder)
    (hle : cmp k (keyOf e) = false) (hge : cmp (keyOf e) k = false)
    (hstop : Stopped cmp k e l r) (hfuel : l.inorder.length ≤ fuel) :
    ∃ c' f h' l' r', s.firstEqual cmp k fuel fuel e.1 (addr l) = .ok f.1 ∧
      Zip s c' (.node f h' l' r') ∧ plug c' (.node f h' l' r') = plug c (.node e h l r) ∧
      (inorder (.node f h' l' r')).length ≤ (inorder (.node e h l r)).length ∧
      cmp k (keyOf f) = false ∧ cmp (keyOf f) k = false ∧ Stopped cmp k f l' r' ∧
      (Apart cmp k c → Leads cmp k c' f l' r') := by
  have hlel : ∀ x ∈ l.inorder, cmp k (keyOf x) = false := fun x hx =>
    hcmp.not_less_trans ((sorted_below hsorted).1 x (List.mem_append_right _ hx)) hle
  have hsub : l.inorder.Sublist (plug c (.node e h l r)).inorder := by
    rw [inorder_plug, inorder, List.append_assoc, List.append_assoc]
    exact (List.sublist_append_left _ _).trans (List.sublist_append_right _ _)
  have hequal : ∀ {x}, cmp k x = false → cmp x k = false → ¬ (cmp k x = true ∨ cmp x k = true) := by
    intro x h₁ h₂
    rw [h₁, h₂]
    decide
  rw [firstEqual_ok hcmp hz.down.2.1 hfuel hfuel (hsorted.sublist hsub) hlel e, firstFrom]
  cases hfind : l.inorder.find? fun x => !cmp (keyOf x) k with
  | none =>
    refine ⟨c, e, h, l, r, rfl, hz, rfl, Nat.le_refl _, hle, hge, hstop, fun hc => ⟨fun x hx => ?_,
      fun hne => absurd hne (hequal hle hge)⟩⟩
    rcases List.mem_append.1 hx with hx | hx
    · exact hc.1 x hx
    · simpa using List.find?_eq_none.1 hfind x hx
  | some f =>
    obtain ⟨hf, l₁, l₂, hl, hless⟩ := List.find?_eq_some_iff_append.1 hfind
    have hfge : cmp (keyOf f) k = false := by simpa using hf
    have hfle := hlel f (hl ▸ List.mem_append_right _ List.mem_cons_self)
    have hat : l.inorder[l₁.length]? = some f := by
      rw [hl, List.getElem?_append_right (Nat.le_refl _), Nat.sub_self]
      rfl
    obtain ⟨c₂, h', l', r', rfl, hlen₁⟩ := exists_focus_at hat
    have hplug : plug (c₂ ++ ⟨false, e, h, r⟩ :: c) (.node f h' l' r') =
        plug c (.node e h (plug c₂ (.node f h' l' r')) r) := plug_append _ _ _
    have hlen := length_le_plug c₂ (.node f h' l' r')
    have hfirst : before c₂ ++ l'.inorder = l₁ := by
      rw [inorder_plug, inorder, List.append_assoc, List.append_assoc, ← List.append_assoc] at hl
      exact List.append_inj_left hl (by rw [List.length_append, hlen₁])
    refine ⟨c₂ ++ ⟨false, e, h, r⟩ :: c, f, h', l', r', rfl, zip_append.2 (zip_fill.2 hz), hplug, ?_,
      hfle, hfge, ⟨fun h => absurd h (by simp [hfle]), fun h => absurd h (by simp [hfge])⟩,
      fun hc => ⟨fun x hx => ?_, fun hne => absurd hne (hequal hfle hfge)⟩⟩
    · rw [inorder, List.length_append, List.length_cons] at hlen ⊢
      rw [inorder, List.length_append, List.length_cons]
      omega
    · rw [before_append, List.append_assoc, hfirst] at hx
      rcases List.mem_append.1 hx with hx | hx
      · exact hc.1 x (by simpa [before] using hx)
      · simpa using hless x hx

/-- Where `find` stops: next to a hole for the key, or at an equal key. -/
lemma find_ok (hcmp : StrictWeak cmp) (hz : Zip s c t) {a : ℕ} (ha : addr t = some a)
    (hfuel : t.inorder.length ≤ fuel) (hsorted : Sorted cmp keyOf (plug c t).inorder)
    (hc : Around cmp k c) :
    ∃ c' e h l r, s.find cmp fuel a k = .ok e.1 ∧ Zip s c' (.node e h l r) ∧
      plug c' (.node e h l r) = plug c t ∧ (inorder (.node e h l r)).length ≤ t.inorder.length ∧
      (cmp k (keyOf e) = true ∧ l = .nil ∧ Around cmp k (⟨false, e, h, r⟩ :: c') ∨
        cmp k (keyOf e) = false ∧ Around cmp k (⟨true, e, h, l⟩ :: c') ∧
          (cmp (keyOf e) k = true → r = .nil)) ∧
      (Apart cmp k c → Leads cmp k c' e l r) := by
  obtain ⟨c₁, e, h, l, r, hrun, hd⟩ := descend_ok hcmp hz ha hfuel hsorted hc
  have hsorted₁ := hsorted
  rw [← hd.plug_eq] at hsorted₁
  have hlen := hd.length_le
  unfold Heap.find
  rw [hrun, Run.bind_ok]
  dsimp only
  split_ifs with heq
  · simp only [Bool.and_eq_true, Bool.not_eq_true'] at heq
    have hlen' : l.inorder.length ≤ fuel := by
      rw [inorder, List.length_append, List.length_cons] at hlen
      omega
    rw [Heap.node_eq hd.zip.down.1, Run.bind_ok]
    obtain ⟨c', f, h', l', r', hfirst, hz', hplug, hle, hlt, hgt, hstop, hleads⟩ :=
      firstEqual_leads hcmp hd.zip hsorted₁ heq.1 heq.2 hd.stopped hlen'
    rw [← hplug] at hsorted₁
    exact ⟨c', f, h', l', r', hfirst, hz', hplug.trans hd.plug_eq, hle.trans hlen,
      .inr ⟨hlt, .right_equal hcmp hsorted₁ hlt hgt, hstop.right⟩, fun h => hleads (hd.apart h)⟩
  · refine ⟨c₁, e, h, l, r, rfl, hd.zip, hd.plug_eq, hlen, ?_, fun hap =>
      hd.stopped.leads hcmp hsorted₁ ?_ (hd.apart hap)⟩
    · by_cases hlt : cmp k (keyOf e) = true
      · exact .inl ⟨hlt, hd.stopped.left hlt, hd.around.left hcmp hsorted₁ hlt⟩
      · have hlt := Bool.eq_false_of_not_eq_true hlt
        exact .inr ⟨hlt, .right hcmp hsorted₁ hlt hd.around.2, hd.stopped.right⟩
    · by_contra hne
      rw [not_or, Bool.not_eq_true, Bool.not_eq_true] at hne
      exact heq (by rw [hne.1, hne.2]; rfl)

end focus
/-! ### Inserting -/

section inserting
variable {t : Tree K V} {fuel : ℕ} {z : ℕ} {v : V} {q : Option ℕ}

/-- The tree with a new node where its key belongs. -/
def Inserted (cmp : K → K → Bool) (z : ℕ) (k : K) (v : V) (t t' : Tree K V) : Prop :=
  ∃ l r, t.inorder = l ++ r ∧ t'.inorder = l ++ (z, k, v) :: r ∧ Between cmp keyOf k l r

lemma Zip.link_ok {d : Bool} {e : ℕ × K × V} {h : ℤ} {u : Tree K V}
    (hz : Zip s c (branch d e h .nil u))
    (hcell : s.cell z = some ⟨q, false, 0, k, v, none, none⟩)
    (hfresh : z ∉ around (branch d e h .nil u) c) :
    ∃ s', s.link fuel d e.1 z = .ok s' ∧
      Zip s' (⟨d, e, h, u⟩ :: c) (.node (z, k, v) 0 .nil .nil) ∧
      Local (z :: around (branch d e h .nil u) c) s s' := by
  have hz' : Zip s (⟨d, e, h, u⟩ :: c) .nil := zip_fill.2 hz
  obtain ⟨-, ⟨he, hu, hc⟩, hnd⟩ := hz'
  have hnd' : (addrs (.node (z, k, v) 0 .nil .nil) ++ addrsUp (⟨d, e, h, u⟩ :: c)).Nodup :=
    List.nodup_cons.2 ⟨fun hmem => hfresh (mem_around_fill.1 (List.mem_append_right _ hmem)), hnd⟩
  rw [addrsUp_cons] at hnd
  have he₁ := (List.nodup_cons.1 hnd).1
  dsimp only at he hu hc he₁
  simp only [around, List.mem_append, mem_addrs_branch, not_or] at hfresh he₁
  obtain ⟨⟨hze, -, hzu⟩, hzc⟩ := hfresh
  have hzcell : (s.withNode e.1 (Node.of d (upper c) c.isEmpty e h (some z) (addr u))).cell z =
      some ⟨q, false, 0, k, v, none, none⟩ := by
    rw [Heap.cell_withNode, if_neg hze]
    exact hcell
  refine ⟨(s.withNode e.1 (Node.of d (upper c) c.isEmpty e h (some z) (addr u))).withNode z
    ⟨some e.1, false, 0, k, v, none, none⟩, ?_, ⟨⟨?_, trivial, trivial⟩, ⟨?_, ?_, ?_⟩, hnd'⟩, rfl,
    fun y hy => ?_⟩
  · unfold Heap.link
    rw [Heap.assign_child_eq fuel he Node.of_child, Run.bind_ok, Node.of_setChild,
      Heap.load_child_eq Heap.cell_withNode_self, Run.bind_ok, Node.of_child, deref_some,
      Run.bind_ok, Heap.modify_eq hzcell]
    rfl
  · exact Heap.cell_withNode_self
  · simp only [Heap.cell_withNode, if_neg (Ne.symm hze), if_true, addr]
  · exact hu.frame fun y hy => by
      simp only [Heap.cell_withNode, if_neg (ne_of_mem_of_not_mem hy hzu),
        if_neg (ne_of_mem_of_not_mem hy he₁.1)]
  · exact hc.frame rfl fun y hy => by
      simp only [Heap.cell_withNode, if_neg (ne_of_mem_of_not_mem hy hzc),
        if_neg (ne_of_mem_of_not_mem hy he₁.2)]
  · have hye : y ≠ e.1 := fun heq => hy (List.mem_cons_of_mem _
      (List.mem_append_left _ (heq ▸ mem_addrs_of_addr addr_branch)))
    have hyz : y ≠ z := fun heq => hy (heq ▸ List.mem_cons_self)
    simp only [Heap.cell_withNode, if_neg hyz, if_neg hye]

lemma Zip.attach_ok {d : Bool} {e : ℕ × K × V} {h : ℤ} {u : Tree K V}
    (hz : Zip s c (branch d e h .nil u))
    (hcell : s.cell z = some ⟨q, false, 0, k, v, none, none⟩)
    (hfresh : z ∉ addrs (plug c (branch d e h .nil u)))
    (hbalanced : (plug c (branch d e h .nil u)).Balanced)
    (hc : Around cmp k (⟨d, e, h, u⟩ :: c)) (hfuel : c.length < fuel) :
    ∃ s' t', s.attach fuel d e.1 z = .ok s' ∧ Zip s' [] t' ∧ t'.Balanced ∧
      Inserted cmp z k v (plug c (branch d e h .nil u)) t' ∧
      Local (z :: addrs (plug c (branch d e h .nil u))) s s' := by
  obtain ⟨s₁, hlink, hz₁, hlocal₁⟩ := hz.link_ok hcell (mt mem_around.1 hfresh)
  have hleaf : (AvlTree.node (z, k, v) 0 .nil .nil).Balanced := by
    simp [AvlTree.Balanced, height]
  have hplug : plug c (branch d e h .nil u) = plug (⟨d, e, h, u⟩ :: c) .nil := rfl
  rw [hplug] at hbalanced ⊢
  obtain ⟨s', r, hrun, t', hz', hbalanced', horder, hlocal'⟩ :=
    hz₁.rebalance_ok false hleaf (balanced_plug.1 hbalanced).2 rfl hfuel
  refine ⟨s', t', ?_, hz', hbalanced', ⟨_, _, ?_, ?_, hc⟩,
    (hlocal₁.mono fun y hy => ?_).trans (hlocal'.mono fun y hy => ?_)⟩
  · unfold Heap.attach
    rw [hlink, Run.bind_ok]
    rw [Bool.false_xor] at hrun
    have hrun' : s₁.rebalance fuel (some e.1) d false = .ok (s', r) := hrun
    rw [hrun', Run.bind_ok]
  · rw [inorder_plug, inorder, List.append_nil]
  · rw [horder, inorder_plug, List.append_assoc]
    rfl
  · rcases List.mem_cons.1 hy with rfl | hy
    · exact List.mem_cons_self
    · have hmem := mem_around.1 hy
      exact List.mem_cons_of_mem _ hmem
  · rcases List.mem_cons.1 hy with rfl | hy
    · exact List.mem_cons_self
    · exact List.mem_cons_of_mem _ (mem_around.1 (List.mem_append_right _ hy))

lemma insertNode_ok (hcmp : StrictWeak cmp) {depth : ℕ} (hz : Zip s c t) {a : ℕ}
    (ha : addr t = some a) (hcell : s.cell z = some ⟨q, false, 0, k, v, none, none⟩)
    (hfresh : z ∉ addrs (plug c t)) (hbalanced : (plug c t).Balanced)
    (hsorted : Sorted cmp keyOf (plug c t).inorder) (hc : Around cmp k c)
    (hfuel : (plug c t).inorder.length ≤ fuel) (hdepth : t.inorder.length ≤ depth) :
    ∃ s' t', s.insertNode cmp fuel depth a z = .ok s' ∧ Zip s' [] t' ∧ t'.Balanced ∧
      Inserted cmp z k v (plug c t) t' ∧ Local (z :: addrs (plug c t)) s s' := by
  induction depth generalizing c t a with
  | zero =>
    cases t with
    | nil => cases ha
    | node e h l r =>
      rw [inorder, List.length_append, List.length_cons] at hdepth
      omega
  | succ depth ih =>
    have hlen := length_le_plug c t
    obtain ⟨c', e, h, l, r, hfind, hz', hplug, hle, hplace, -⟩ :=
      find_ok (k := k) hcmp hz ha (show _ ≤ fuel by omega) hsorted hc
    have hlen' := length_le_plug c' (.node e h l r)
    rw [inorder, List.length_append, List.length_cons] at hle hlen'
    rw [← hplug] at hfresh hbalanced hsorted hfuel ⊢
    unfold Heap.insertNode
    rw [Heap.node_eq hcell, Run.bind_ok, hfind, Run.bind_ok, Heap.node_eq hz'.down.1, Run.bind_ok]
    dsimp only
    rcases hplace with ⟨hlt, rfl, haround⟩ | ⟨hle', haround, hright⟩
    · rw [if_pos hlt]
      exact Zip.attach_ok (d := false) hz' hcell hfresh hbalanced haround (by omega)
    · rw [if_neg (by rw [hle']; exact Bool.false_ne_true)]
      have hattach : r = .nil → ∃ s' t', s.attach fuel true e.1 z = .ok s' ∧ Zip s' [] t' ∧
          t'.Balanced ∧ Inserted cmp z k v (plug c' (.node e h l r)) t' ∧
          Local (z :: addrs (plug c' (.node e h l r))) s s' := by
        rintro rfl
        exact Zip.attach_ok (d := true) hz' hcell hfresh hbalanced haround (by omega)
      cases hgt : cmp (keyOf e) k with
      | true => exact hattach (hright hgt)
      | false =>
        cases hr : addr r with
        | none => exact hattach (addr_eq_none.1 hr)
        | some b =>
          exact ih (c := ⟨true, e, h, l⟩ :: c') (t := r) (zip_fill.2 hz') hr hfresh hbalanced
            hsorted haround hfuel (by omega)

/-- The invariant of the root: a sorted and balanced tree of used addresses is in memory. -/
structure Avl (cmp : K → K → Bool) (s : Heap K V) (t : Tree K V) : Prop where
  zip : Zip s [] t
  balanced : t.Balanced
  sorted : Sorted cmp keyOf t.inorder
  used : ∀ y ∈ addrs t, y < s.fresh

lemma Avl.length_le (h : Avl cmp s t) : t.inorder.length ≤ s.fresh := by
  have hnd : (addrs t).Nodup := (List.nodup_append.1 h.zip.nodup).1
  have hsub : addrs t ⊆ List.range s.fresh := fun y hy => List.mem_range.2 (h.used y hy)
  have hle := (hnd.subperm hsub).length_le
  rwa [addrs, List.length_map, List.length_range] at hle

lemma Inserted.perm {t t' : Tree K V} (h : Inserted cmp z k v t t') :
    t'.inorder.Perm ((z, k, v) :: t.inorder) := by
  obtain ⟨l, r, ht, ht', -⟩ := h
  rw [ht, ht']
  exact List.perm_middle

lemma Inserted.sorted {t t' : Tree K V} (h : Inserted cmp z k v t t')
    (hsorted : Sorted cmp keyOf t.inorder) : Sorted cmp keyOf t'.inorder := by
  obtain ⟨l, r, ht, ht', hbetween⟩ := h
  rw [ht] at hsorted
  rw [ht']
  exact hsorted.insert hbetween

lemma Avl.insert_ok (hcmp : StrictWeak cmp) (h : Avl cmp s t) (hfuel : s.fresh ≤ fuel) (k : K)
    (v : V) : ∃ s' t', s.insert cmp fuel k v = .ok (s', s.fresh) ∧ Avl cmp s' t' ∧
      Inserted cmp s.fresh k v t t' ∧ s'.fresh = s.fresh + 1 ∧
      ∀ y, y ∉ s.fresh :: addrs t → s'.cell y = s.cell y := by
  have hnew : s.fresh ∉ addrs t := fun hmem => absurd (h.used _ hmem) (lt_irrefl _)
  have hfinish : ∀ (s' : Heap K V) (t' : Tree K V), Zip s' [] t' → t'.Balanced →
      Inserted cmp s.fresh k v t t' → s'.fresh = s.fresh + 1 → Avl cmp s' t' := by
    intro s' t' hz' hbalanced' hins hfresh'
    refine ⟨hz', hbalanced', hins.sorted h.sorted, fun y hy => ?_⟩
    have hmem := (hins.perm.map Prod.fst).mem_iff.1 hy
    rw [List.map_cons, List.mem_cons] at hmem
    rcases hmem with rfl | hmem
    · exact hfresh' ▸ Nat.lt_succ_self _
    · exact hfresh' ▸ (h.used y hmem).trans (Nat.lt_succ_self _)
  have hptr : s.ptr = addr t := h.zip.up
  unfold Heap.insert
  cases t with
  | nil =>
    rw [hptr]
    have hins : Inserted cmp s.fresh k v .nil (.node (s.fresh, k, v) 0 .nil .nil) :=
      ⟨[], [], rfl, rfl, by simp, by simp⟩
    refine ⟨_, .node (s.fresh, k, v) 0 .nil .nil, rfl, hfinish _ _ ⟨⟨?_, trivial, trivial⟩, rfl, ?_⟩
      (by simp [AvlTree.Balanced, height]) hins rfl, hins, rfl, fun y hy => ?_⟩
    · exact Heap.cell_withNode_self
    · exact List.nodup_singleton _
    · exact Heap.cell_withNode_of_ne (List.ne_of_not_mem_cons hy)
  | node e hd l r =>
    rw [hptr]
    have hcell₁ : ∀ y, y ≠ s.fresh → (s.alloc ⟨none, false, 0, k, v, none, none⟩).1.cell y =
        s.cell y := fun y hy => Heap.cell_withNode_of_ne hy
    have hz₁ : Zip (s.alloc ⟨none, false, 0, k, v, none, none⟩).1 [] (.node e hd l r) :=
      ⟨h.zip.down.frame fun y hy => hcell₁ y (ne_of_mem_of_not_mem hy hnew), hptr, h.zip.nodup⟩
    have hlen := h.length_le
    obtain ⟨s', t', hrun, hz', hbalanced', hins, hlocal⟩ := insertNode_ok hcmp (c := []) hz₁ rfl
      ((Heap.cell_withNode s.fresh).trans (if_pos rfl)) hnew h.balanced h.sorted around_nil
      (hlen.trans hfuel) (hlen.trans hfuel)
    refine ⟨s', t', ?_, hfinish s' t' hz' hbalanced' hins hlocal.fresh_eq, hins, hlocal.fresh_eq,
      fun y hy => (hlocal.cell_eq y hy).trans (hcell₁ y (List.ne_of_not_mem_cons hy))⟩
    show (s.alloc _).1.insertNode cmp fuel fuel e.1 s.fresh >>= _ = _
    rw [hrun, Run.bind_ok]

end inserting
end CoreCommon.Btree
