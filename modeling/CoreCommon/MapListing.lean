import CoreCommon.MapInserts

/-! The entries of a table in the order of its walk, and what a list of entries makes of an
empty table when every insertion adds an entry. -/
namespace CoreCommon.Map
variable {K V : Type} {multiple : Bool}

/-! ### In the order of the walk -/

section listing
variable {hash : K → UInt64} {m : Map K V multiple} {fuel : ℕ}

/-- The indices of the live buckets. -/
def liveIndices (m : Map K V multiple) : List ℕ :=
  (List.range m.buckets.length).filter fun q => IsLive (m.byteAt q)

/-- The entries in the order of their buckets. -/
def listed (m : Map K V multiple) : List (K × V) :=
  m.liveIndices.filterMap fun q => m.buckets[q]?

lemma mem_liveIndices {q : ℕ} :
    q ∈ m.liveIndices ↔ q < m.buckets.length ∧ IsLive (m.byteAt q) := by
  simp [liveIndices]

lemma walk_eq (hm : m.Tidy hash) (hfuel : m.buckets.length < fuel) :
    m.walk fuel = .ok m.liveIndices := by
  obtain ⟨l, hl, hsorted, hmem⟩ := walk_ok hm hfuel
  have hlive : m.liveIndices.Pairwise (· < ·) := List.pairwise_lt_range.filter _
  have hperm : l.Perm m.liveIndices := (List.perm_ext_iff_of_nodup (hsorted.imp ne_of_lt)
    (hlive.imp ne_of_lt)).2 fun q => (hmem q).trans mem_liveIndices.symm
  rw [hl, hperm.eq_of_pairwise (fun a b _ _ hab hba => absurd hab hba.not_gt) hsorted hlive]

lemma mapM_bucket {l : List ℕ} (hl : ∀ q ∈ l, q < m.buckets.length) :
    l.mapM m.bucket = .ok (l.filterMap fun q => m.buckets[q]?) := by
  induction l with
  | nil => rfl
  | cons q l ih =>
    have hq := List.getElem?_eq_getElem (hl q List.mem_cons_self)
    rw [List.mapM_cons, bucket_eq_ok.2 hq, Run.bind_ok,
      ih fun q' hq' => hl q' (List.mem_cons_of_mem q hq'), Run.bind_ok, List.filterMap_cons_some hq]
    rfl

lemma walk_buckets (hm : m.Tidy hash) (hfuel : m.buckets.length < fuel) :
    (m.walk fuel >>= fun l => l.mapM m.bucket) = .ok m.listed := by
  rw [walk_eq hm hfuel, Run.bind_ok]
  exact mapM_bucket fun q hq => (mem_liveIndices.1 hq).1

lemma listed_eq_entries (hm : m.Tidy hash) : (m.listed : Multiset (K × V)) = m.entries := by
  have hindices : (m.liveIndices : Multiset ℕ) =
      m.liveSet.val.map fun s => s.1 * 16 + (s.2 : ℕ) := by
    have hinj : Function.Injective fun s : ℕ × Fin 16 => s.1 * 16 + (s.2 : ℕ) := fun s t h =>
      Prod.ext (slot_injective h).1 (slot_injective h).2
    apply ((Multiset.coe_nodup.2 (List.nodup_range.filter _)).ext (m.liveSet.nodup.map hinj)).2
    intro q
    rw [Multiset.mem_coe, Multiset.mem_map]
    refine mem_liveIndices.trans ⟨fun ⟨_, hlive⟩ =>
      ⟨(q / 16, ⟨q % 16, Nat.mod_lt _ (by decide)⟩), mem_liveSet.2 hlive, Nat.div_add_mod' q 16⟩, ?_⟩
    · rintro ⟨⟨i, c⟩, hs, rfl⟩
      have hlive : IsLive (m.byte i c) := mem_liveSet.1 hs
      obtain ⟨b, hb⟩ := hm.stored i c hlive
      exact ⟨(List.getElem?_eq_some_iff.1 hb).1, (byteAt_slot m i c).symm ▸ hlive⟩
  have hlisted : (m.listed : Multiset (K × V)) =
      (m.liveIndices : Multiset ℕ).filterMap fun q => m.buckets[q]? := rfl
  rw [hlisted, hindices, Multiset.filterMap_map]
  rfl

end listing

/-! ### Into an empty table -/

section gathering
variable [DecidableEq K] [Inhabited K] [Inhabited V] {hash : K → UInt64} {m m' : Map K V false}
  {k : K} {e : K × V} {l : List (K × V)}

/-- The insertion of `k` meets no entry of it and puts a new one. -/
def Accepts (hash : K → UInt64) (m : Map K V multiple) (k : K) : Prop :=
  (m.loadFactor → m.controlBytes.length < 2 ^ 27) ∧
    ∀ fuel m₁, m.checkResize hash fuel = .ok m₁ →
      ¬ Findable hash m₁ k ∧ m₁.HasEmpty ∧ m₁.controlBytes.length < 2 ^ 28

/-- Every pair adds an entry when its turn comes. -/
inductive Gathers (hash : K → UInt64) : Map K V false → List (K × V) → Prop
  | nil (m : Map K V false) : Gathers hash m []
  | cons {m m₁ : Map K V false} {e : K × V} {l r} (haccepts : Accepts hash m e.1) (fuel : ℕ)
      (hrun : m.insert hash fuel e.1 e.2 = .ok (m₁, r)) (hrest : Gathers hash m₁ l) :
      Gathers hash m (e :: l)

lemma Accepts.insert_adds (hm : m.Tidy hash) (h : Accepts hash m k) {v : V} {fuel : ℕ}
    {r : Option V} (hrun : m.insert hash fuel k v = .ok (m', r)) :
    m'.entries = (k, v) ::ₘ m.entries := by
  obtain ⟨m₁, t, hresize, hwritten, ⟨hfound, -⟩ | ⟨-, -, -, h'⟩⟩ := insert_entries hm hrun
  · exact absurd hfound (h.2 _ _ hresize).1
  · rw [hwritten, h']

lemma accepts_of_insert (hm : m.Tidy hash) {v : V} {fuel : ℕ} {r : Option V}
    (hrun : m.insert hash fuel k v = .ok (m', r)) (hcard : m'.entries.card = m.entries.card + 1) :
    Accepts hash m k := by
  obtain ⟨m₁, t, hresize, hwritten, ⟨-, w, h⟩ | ⟨hmissed, hempty, hlen, -⟩⟩ := insert_entries hm hrun
  · rw [hwritten, h, Multiset.card_cons, Multiset.card_cons] at hcard
    omega
  · refine ⟨fun hload => ?_, fun fuel' m₂ hresize' => ?_⟩
    · obtain ⟨hload', -⟩ | ⟨-, hsmall, -⟩ := checkResize_ok hm hresize
      · exact absurd (hload'.symm.trans hload) Bool.false_ne_true
      · exact hsmall
    · obtain rfl := (checkResize_steady m).unique hresize' hresize
      exact ⟨hmissed, hempty, hlen⟩

lemma Gathers.insertAll (h : Gathers hash m l) (hm : m.Tidy hash) :
    ∃ n m', insertAll hash n m l = .ok m' ∧ m'.entries = l + m.entries := by
  induction h with
  | nil m => exact ⟨0, m, rfl, (zero_add _).symm⟩
  | @cons m m₁ e l r haccepts fuel hrun _ ih =>
    have hcall : m.apply hash fuel (.insert e.1 e.2) = .ok (m₁, r) := hrun
    obtain ⟨n, m', hrest, hentries⟩ := ih (hm.call hcall)
    have hrun' := (insert_steady m e.1 e.2).mono (le_max_left fuel n) hrun
    have hrest' := (insertAll_steady m₁ l).mono (le_max_right fuel n) hrest
    refine ⟨max fuel n, m', Run.bind_eq_ok.2 ⟨_, hrun', hrest'⟩, ?_⟩
    rw [hentries, haccepts.insert_adds hm hrun, ← Multiset.cons_coe, Multiset.cons_add,
      Multiset.add_cons]

/-- An insertion adds at most one entry. -/
lemma insertAll_card (hm : m.Tidy hash) {fuel : ℕ} (hrun : insertAll hash fuel m l = .ok m') :
    m'.entries.card ≤ l.length + m.entries.card ∧
      (m'.entries.card = l.length + m.entries.card → Gathers hash m l) := by
  induction l generalizing m with
  | nil =>
    obtain rfl := Except.ok.inj hrun
    exact ⟨by rw [List.length_nil, Nat.zero_add], fun _ => .nil m⟩
  | cons e l ih =>
    obtain ⟨⟨m₁, r⟩, hinsert, hrest⟩ := Run.bind_eq_ok.1 hrun
    have hcall : m.apply hash fuel (.insert e.1 e.2) = .ok (m₁, r) := hinsert
    obtain ⟨hle, hgathers⟩ := ih (hm.call hcall) hrest
    have hone : m₁.entries.card ≤ m.entries.card + 1 := by
      obtain ⟨m₂, t, -, hwritten, ⟨-, w, h⟩ | ⟨-, -, -, h⟩⟩ := insert_entries hm hinsert
      · rw [hwritten, h, Multiset.card_cons, Multiset.card_cons]
        exact Nat.le_succ _
      · rw [hwritten, h, Multiset.card_cons]
    rw [List.length_cons]
    refine ⟨by omega, fun hcard => ?_⟩
    exact .cons (accepts_of_insert hm hinsert (by omega)) fuel hinsert (hgathers (by omega))

/-- The insertions return and add every pair exactly when every insertion adds its pair. -/
lemma insertAll_gathers_iff (hm : m.Tidy hash) : (∃ n m', (∀ fuel ≥ n,
    insertAll hash fuel m l = .ok m') ∧ m'.entries = l + m.entries) ↔ Gathers hash m l := by
  constructor
  · rintro ⟨n, m', hrun, hentries⟩
    apply (insertAll_card hm (hrun n le_rfl)).2
    rw [hentries, Multiset.card_add, Multiset.coe_card]
  · intro h
    obtain ⟨n, m', hrun, hentries⟩ := h.insertAll hm
    exact ⟨n, m', fun fuel hfuel => (insertAll_steady m l).mono hfuel hrun, hentries⟩

/-- Nothing but the pairs comes into the table. -/
lemma mem_of_insertAll (hm : m.Tidy hash) {fuel : ℕ} (hrun : insertAll hash fuel m l = .ok m') :
    ∀ e ∈ m'.entries, e ∈ l ∨ e ∈ m.entries := by
  induction l generalizing m with
  | nil =>
    obtain rfl := Except.ok.inj hrun
    exact fun e he => .inr he
  | cons e l ih =>
    obtain ⟨⟨m₁, r⟩, hinsert, hrest⟩ := Run.bind_eq_ok.1 hrun
    have hcall : m.apply hash fuel (.insert e.1 e.2) = .ok (m₁, r) := hinsert
    intro e' he'
    rcases ih (hm.call hcall) hrest e' he' with hmem | hmem
    · exact .inl (List.mem_cons_of_mem e hmem)
    · obtain ⟨m₂, t, -, hwritten, h⟩ := insert_entries hm hinsert
      rw [hwritten, Multiset.mem_cons] at hmem
      rcases hmem with rfl | hmem
      · exact .inl List.mem_cons_self
      · rcases h with ⟨-, w, h⟩ | ⟨-, -, -, h⟩
        · exact .inr (h ▸ Multiset.mem_cons_of_mem hmem)
        · exact .inr (h ▸ hmem)

end gathering

end CoreCommon.Map
