import CoreCommon.MapInserts
import CoreCommon.MapRefinement
import CoreCommon.MapTermination

/-! A `Map` that was made large enough. Until half of the slots of the first table have been
asked for, no call doubles it and an empty byte is left, whatever is removed in between: every
call returns, and what it returns is what a finite map says. -/
namespace CoreCommon.Map
variable {K V : Type} {multiple : Bool}

/-! ### The load factor of a power of two -/

lemma toFloat_two_pow (e : ℕ) : toFloat (2 ^ e) = 2 ^ e := by
  unfold toFloat
  split_ifs with hsmall
  · rfl
  · have he : 24 ≤ e := (Nat.pow_le_pow_iff_right (show 1 < 2 by norm_num)).1 (not_lt.1 hsmall)
    have hsplit : 2 ^ e = 2 ^ 23 * 2 ^ (e - 23) := by
      rw [← Nat.pow_add]
      congr 1
      omega
    have hpos : 0 < 2 ^ (e - 23) := Nat.two_pow_pos _
    have hround : NumberText.divRoundEven (2 ^ e) (2 ^ (e - 23)) = 2 ^ 23 := by
      unfold NumberText.divRoundEven
      rw [hsplit, Nat.mul_mod_left, Nat.mul_div_cancel _ hpos]
      exact if_pos hpos
    dsimp only
    rw [Nat.log2_two_pow, hround, ← hsplit]

/-- The conversion does not pass a power of two. -/
lemma toFloat_le {n e : ℕ} (h : n ≤ 2 ^ e) : toFloat n ≤ 2 ^ e := by
  rcases h.eq_or_lt with rfl | hlt
  · exact (toFloat_two_pow e).le
  · unfold toFloat
    split_ifs with hsmall
    · exact h
    · have hne : n ≠ 0 := by
        rintro rfl
        exact hsmall (by norm_num)
      have hlog : 24 ≤ Nat.log2 n := (Nat.le_log2 hne).2 (not_lt.1 hsmall)
      have htop : Nat.log2 n + 1 ≤ e := (Nat.log2_lt hne).2 hlt
      have hself : n < 2 ^ 24 * 2 ^ (Nat.log2 n - 23) := by
        rw [← Nat.pow_add, show 24 + (Nat.log2 n - 23) = Nat.log2 n + 1 by omega]
        exact Nat.lt_log2_self
      have hround : ∀ a b, NumberText.divRoundEven a b ≤ a / b + 1 := by
        intro a b
        unfold NumberText.divRoundEven
        dsimp only
        split_ifs <;> omega
      have hdiv : n / 2 ^ (Nat.log2 n - 23) < 2 ^ 24 :=
        Nat.div_lt_of_lt_mul (by rwa [Nat.mul_comm])
      dsimp only
      calc _ ≤ 2 ^ 24 * 2 ^ (Nat.log2 n - 23) :=
            Nat.mul_le_mul_right _ ((hround _ _).trans hdiv)
        _ = 2 ^ (Nat.log2 n + 1) := by
            rw [← Nat.pow_add]
            congr 1
            omega
        _ ≤ 2 ^ e := Nat.pow_le_pow_right (by norm_num) htop

/-! ### Used slots -/

/-- How many new slots a call can use. -/
def Op.writes : Op K V → ℕ
  | .insert _ _ => 1
  | .upsert _ _ => 1
  | .remove _ => 0
  | .clear => 0

/-- The slots that are not empty: entries and tombstones. -/
def usedSet (m : Map K V multiple) : Finset (ℕ × Fin 16) :=
  (Finset.range m.controlBytes.length ×ˢ Finset.univ).filter fun s => m.byte s.1 s.2 ≠ 0

section used
variable {m m' : Map K V multiple}

lemma mem_usedSet {s : ℕ × Fin 16} : s ∈ m.usedSet ↔ m.byte s.1 s.2 ≠ 0 := by
  simp only [usedSet, Finset.mem_filter, Finset.mem_product, Finset.mem_range, Finset.mem_univ,
    and_true, and_iff_right_iff_imp]
  exact lt_of_byte_ne_zero

lemma liveSet_subset_usedSet : m.liveSet ⊆ m.usedSet :=
  fun _ hs => mem_usedSet.2 (mem_liveSet.1 hs).1

lemma usedSet_subset (h : ∀ i c, m'.byte i c ≠ 0 → m.byte i c ≠ 0) : m'.usedSet ⊆ m.usedSet :=
  fun s hs => mem_usedSet.2 (h s.1 s.2 (mem_usedSet.1 hs))

/-- A write uses one more slot at most. -/
lemma usedSet_put_card {g : ℕ} {c : Fin 16} (hg : g < m.controlBytes.length) (b : UInt8)
    (e : K × V) : (m.put g c b e).usedSet.card ≤ m.usedSet.card + 1 := by
  refine (Finset.card_le_card fun s hs => ?_).trans (Finset.card_insert_le (g, c) m.usedSet)
  have hbyte := mem_usedSet.1 hs
  rw [byte_put hg] at hbyte
  split_ifs at hbyte with hsame
  · exact Finset.mem_insert.2 (.inl (Prod.ext hsame.1 hsame.2))
  · exact Finset.mem_insert.2 (.inr (mem_usedSet.2 hbyte))

lemma Swept.usedSet_card (h : Swept m m') : m'.usedSet.card ≤ m.usedSet.card := by
  refine Finset.card_le_card (usedSet_subset fun i c hbyte => ?_)
  rcases h.byte_eq i c with heq | ⟨-, hlive⟩
  · rwa [← heq]
  · exact hlive.1

/-- With fewer used slots than there are, one is empty. -/
lemma hasEmpty_of_usedSet (h : m.usedSet.card < 16 * m.controlBytes.length) : m.HasEmpty := by
  by_contra hnone
  unfold HasEmpty at hnone
  push Not at hnone
  have hall : m.usedSet = Finset.range m.controlBytes.length ×ˢ Finset.univ :=
    Finset.filter_true_of_mem fun s hs =>
      hnone s.1 (Finset.mem_range.1 (Finset.mem_product.1 hs).1) s.2
  rw [hall, Finset.card_product, Finset.card_range, Finset.card_univ, Fintype.card_fin] at h
  omega

end used

/-! ### Calls return -/

section returns
variable [DecidableEq K] {hash : K → UInt64} {fuel : ℕ} {m : Map K V false} {k : K}

omit [DecidableEq K] in
lemma bucket_of_lt {j : ℕ} (hj : j < m.buckets.length) : ∃ b, m.bucket j = .ok b :=
  ⟨_, bucket_eq_ok.2 (List.getElem?_eq_getElem hj)⟩

lemma Open.lookup_returns (hm : m.Open hash) (hfuel : m.controlBytes.length ≤ fuel) (k : K) :
    ∃ r, m.lookup hash fuel k = .ok r := by
  obtain ⟨⟨p, r⟩, hsearch⟩ := hm.search_ends hfuel k
  obtain ⟨j, -, -, -, ⟨c, v, -, rfl, hat⟩ | ⟨rfl, -, -⟩⟩ := search_probe_ok hm.toSound hsearch
  · rw [lookup_eq, hsearch, Run.bind_ok]
    dsimp only
    rw [bucket_eq_ok.2 hat.2, Run.bind_ok]
    exact ⟨_, rfl⟩
  · rw [lookup_eq, hsearch]
    exact ⟨_, rfl⟩

lemma Open.remove_returns (hm : m.Open hash) (hfuel : m.controlBytes.length ≤ fuel) (k : K) :
    ∃ x, m.remove hash fuel k = .ok x := by
  obtain ⟨⟨p, r⟩, hsearch⟩ := hm.search_ends hfuel k
  unfold Map.remove
  obtain ⟨j, -, -, -, ⟨c, v, hc, rfl, hat⟩ | ⟨rfl, -, -⟩⟩ := search_probe_ok hm.toSound hsearch
  · have hj := (List.getElem?_eq_some_iff.1 hat.2).1
    have hremove : p.remove m = .ok ((m.withByte p.i ⟨p.c, hc ▸ c.2⟩ sentinel).withCount
        (m.count - 1)) := by
      rw [Probe.remove, dif_pos (hc ▸ c.2), setControl_eq hat.lt]
      rfl
    obtain ⟨b, hb⟩ := bucket_of_lt (m := (m.withByte p.i ⟨p.c, hc ▸ c.2⟩ sentinel).withCount
      (m.count - 1)) hj
    rw [hsearch, Run.bind_ok]
    exact ⟨_, Run.bind_eq_ok.2 ⟨_, hremove, Run.bind_eq_ok.2 ⟨b, hb, rfl⟩⟩⟩
  · rw [hsearch]
    exact ⟨_, rfl⟩

omit [DecidableEq K] in
lemma clearLoop_returns (hm : m.Tidy hash) (hfuel : m.controlBytes.length < fuel) {steps : ℕ}
    {it : Iterator} (hit : it.From m 0) (hsteps : m.buckets.length < it.c + steps) :
    ∃ m', clearLoop fuel m.buckets.length steps m it = .ok m' := by
  induction steps generalizing m it with
  | zero =>
    have := hit.le_length
    omega
  | succ steps ih =>
    unfold clearLoop
    by_cases hend : it.c = m.buckets.length
    · rw [if_neg (not_not.2 hend)]
      exact ⟨m, rfl⟩
    · have hlt := lt_of_le_of_ne hit.le_length hend
      obtain ⟨m₁, hremove, hm₁, hswept, hwalked, hnext⟩ := clear_step fuel hm hit hlt
      have hroom := hm₁.room.trans_le (Nat.mod_le _ _)
      rw [if_pos hend, hremove, Run.bind_ok, hnext]
      rw [← hswept.buckets_eq] at hlt hsteps ⊢
      rw [← hswept.length_eq] at hfuel
      obtain ⟨it', hscan⟩ : ∃ it', m₁.scan fuel (it.c + 1) ((it.c + 1) / 16) = .ok it' :=
        Map.scan_ends hm₁.buckets_mod hroom hlt (by omega)
      have hfrom := scan_ok hm₁.buckets_mod hlt hscan
      have hle := hfrom.le
      rw [hscan, Run.bind_ok]
      exact ih hm₁ hfuel (hfrom.advance hwalked) (by omega)

omit [DecidableEq K] in
lemma Tidy.clear_returns (hm : m.Tidy hash) (hfuel : 16 * m.controlBytes.length < fuel) :
    ∃ m', m.clear fuel = .ok m' := by
  have hroom := hm.room.trans_le (Nat.mod_le _ _)
  obtain ⟨it, hbegin⟩ : ∃ it, m.scan fuel 0 (0 / 16) = .ok it :=
    Map.scan_ends hm.buckets_mod hroom (Nat.zero_le _) (by omega)
  have hfrom : it.From m 0 := scan_ok hm.buckets_mod (Nat.zero_le _) hbegin
  have hnext : m.begin fuel = .ok it := hbegin
  unfold clear
  rw [hnext, Run.bind_ok]
  exact clearLoop_returns hm (by omega) hfrom (by omega)

variable [Inhabited K] [Inhabited V]

/-- Without a resize the search ends at an entry or at a group with a free slot. -/
lemma Open.place_returns (hm : m.Open hash) (hsmall : m.controlBytes.length < 2 ^ 28)
    (hload : m.loadFactor = false) (hfuel : m.controlBytes.length ≤ fuel) (k : K) :
    ∃ m' j fresh, m.place hash fuel k = .ok (m', j, fresh) ∧ j < m'.buckets.length := by
  obtain ⟨⟨p, r⟩, hsearch⟩ := hm.search_ends hfuel k
  have hresize : m.checkResize hash fuel = .ok m := by
    rw [Map.checkResize, hload]
    rfl
  unfold place
  rw [hresize, Run.bind_ok, if_neg Bool.false_ne_true, hsearch, Run.bind_ok]
  obtain ⟨j, hi, -, -, ⟨c, v, -, rfl, hat⟩ | ⟨rfl, ⟨c, hzero⟩, -⟩⟩ :=
    search_probe_ok hm.toSound hsearch
  · exact ⟨m, _, false, rfl, (List.getElem?_eq_some_iff.1 hat.2).1⟩
  · have hlt : p.i < m.controlBytes.length := hi ▸ probeAt_lt hm.pos _ _
    have hroom : m.buckets.length = m.controlBytes.length * 16 :=
      hm.room.trans (Nat.mod_eq_of_lt (by omega))
    cases hfree : firstFree (m.byte p.i) with
    | none => exact absurd hzero (firstFree_eq_none hfree c).1
    | some d =>
      have hd := d.2
      dsimp only
      rw [insert_of_free hlt hfree, Run.bind_ok]
      exact ⟨_, _, true, rfl, show p.i * 16 + (d : ℕ) < m.buckets.length by omega⟩

lemma Open.apply_returns (hm : m.Open hash) (hsmall : m.controlBytes.length < 2 ^ 28)
    (hfuel : 16 * m.controlBytes.length < fuel) {op : Op K V}
    (hload : op.writes ≠ 0 → m.loadFactor = false) : ∃ x, m.apply hash fuel op = .ok x := by
  have hgroups : m.controlBytes.length ≤ fuel := by omega
  have hset : ∀ (m₁ : Map K V false) (j : ℕ) (b : K × V), j < m₁.buckets.length →
      ∃ m₂, m₁.setBucket j b = .ok m₂ ∧ m₂.buckets.length = m₁.buckets.length :=
    fun m₁ j b hj => ⟨_, setBucket_eq_ok.2 ⟨hj, rfl⟩, List.length_set⟩
  cases op with
  | insert k v =>
    obtain ⟨m₁, j, fresh, hplace, hj⟩ := hm.place_returns hsmall (hload one_ne_zero) hgroups k
    obtain ⟨b, hb⟩ := bucket_of_lt hj
    obtain ⟨m₂, hfresh, -⟩ := hset m₁ j (k, v) hj
    obtain ⟨m₃, hagain, -⟩ := hset m₁ j (b.1, v) hj
    rw [Map.apply, Map.insert, hplace, Run.bind_ok]
    cases fresh with
    | true => exact ⟨_, Run.bind_eq_ok.2 ⟨m₂, hfresh, rfl⟩⟩
    | false => exact ⟨_, Run.bind_eq_ok.2 ⟨b, hb, Run.bind_eq_ok.2 ⟨m₃, hagain, rfl⟩⟩⟩
  | upsert k stored =>
    obtain ⟨m₁, j, fresh, hplace, hj⟩ := hm.place_returns hsmall (hload one_ne_zero) hgroups k
    obtain ⟨m₂, hupsert, hlen⟩ : ∃ m₂, m.upsert hash fuel k = .ok (m₂, j) ∧
        m₂.buckets.length = m₁.buckets.length := by
      obtain ⟨b, hb⟩ := bucket_of_lt hj
      obtain ⟨m₂, hfresh, hlen⟩ := hset m₁ j (k, b.2) hj
      rw [upsert, hplace, Run.bind_ok]
      cases fresh with
      | true => exact ⟨m₂, Run.bind_eq_ok.2 ⟨b, hb, Run.bind_eq_ok.2 ⟨m₂, hfresh, rfl⟩⟩, hlen⟩
      | false => exact ⟨m₁, rfl, rfl⟩
    obtain ⟨b, hb⟩ := bucket_of_lt (hlen.symm ▸ hj)
    rw [Map.apply, hupsert, Run.bind_ok]
    dsimp only
    rw [hb, Run.bind_ok]
    cases stored with
    | none => exact ⟨_, rfl⟩
    | some v =>
      obtain ⟨m₃, hstored, -⟩ := hset m₂ j (b.1, v) (hlen.symm ▸ hj)
      exact ⟨_, Run.bind_eq_ok.2 ⟨m₃, hstored, rfl⟩⟩
  | remove k => exact hm.remove_returns hgroups k
  | clear =>
    obtain ⟨m₁, hclear⟩ := hm.toTidy.clear_returns hfuel
    exact ⟨_, Run.bind_eq_ok.2 ⟨m₁, hclear, rfl⟩⟩

end returns

/-! ### Runs -/

section runs
variable [DecidableEq K] {hash : K → UInt64} {fuel n u : ℕ} {m m' : Map K V false}

omit [DecidableEq K] in
lemma Wrote.used {k : K} {v : V} {old : Option V} (h : Wrote hash m k v old m') :
    m'.controlBytes.length = m.controlBytes.length ∧ m'.usedSet.card ≤ m.usedSet.card + 1 := by
  cases h with
  | again hat => exact ⟨put_length _ _, usedSet_put_card hat.lt _ _⟩
  | fresh hvacant hj => exact ⟨put_length _ (k, v), usedSet_put_card hvacant.lt _ (k, v)⟩

variable [Inhabited K] [Inhabited V]

omit [DecidableEq K] in
lemma checkResize_of_light (hload : m.loadFactor = false) : m.checkResize hash fuel = .ok m := by
  rw [Map.checkResize, hload]
  rfl

/-- A call without a resize keeps the table and uses one more slot at most. -/
lemma apply_used {op : Op K V} {r : Option V} (hm : m.Tidy hash)
    (hload : op.writes ≠ 0 → m.loadFactor = false) (hrun : m.apply hash fuel op = .ok (m', r)) :
    m'.controlBytes.length = m.controlBytes.length ∧
      m'.usedSet.card ≤ m.usedSet.card + op.writes := by
  cases op with
  | insert k v =>
    obtain ⟨m₁, hresize, hwrote⟩ := insert_ok hrun
    obtain rfl := Except.ok.inj ((checkResize_of_light (hload one_ne_zero)).symm.trans hresize)
    exact (hwrote hm.toSound).used
  | upsert k stored =>
    obtain ⟨m₁, hresize, hwrote⟩ := apply_upsert_ok hrun
    obtain rfl := Except.ok.inj ((checkResize_of_light (hload one_ne_zero)).symm.trans hresize)
    obtain ⟨w, old, -, -, hwrote⟩ := hwrote hm.toSound
    exact hwrote.used
  | remove k =>
    obtain ⟨i, c, w, hat, -, rfl⟩ | ⟨-, rfl, -⟩ := remove_ok hm.toSound hrun
    · refine ⟨withByte_length _ _, Finset.card_le_card (usedSet_subset fun i' c' hbyte => ?_)⟩
      -- the tombstone stands where the entry was
      by_cases hsame : i' = i ∧ c' = c
      · obtain ⟨rfl, rfl⟩ := hsame
        exact hat.1.1
      · exact fun hzero => hbyte ((byte_withByte hat.lt _ _ i' c').trans
          ((if_neg hsame).trans hzero))
    · exact ⟨rfl, le_rfl⟩
  | clear =>
    obtain ⟨m₁, hclear, hrun⟩ := Run.bind_eq_ok.1 hrun
    cases hrun
    obtain ⟨-, hswept, -⟩ := clear_ok hm hclear
    exact ⟨hswept.length_eq, hswept.usedSet_card⟩

/-- A valid map in its first `n` groups, `u` of whose slots can have been used. -/
structure Reserved (hash : K → UInt64) (n u : ℕ) (m : Map K V false) : Prop
    extends Valid hash m where
  length_eq : m.controlBytes.length = n
  used : m.usedSet.card ≤ u

omit [DecidableEq K] [Inhabited K] [Inhabited V] in
lemma Reserved.count_le (hm : Reserved hash n u m) : m.count ≤ u :=
  hm.counted.trans_le ((Finset.card_le_card liveSet_subset_usedSet).trans hm.used)

omit [DecidableEq K] [Inhabited K] [Inhabited V] in
/-- Up to half of the slots the load factor is below its limit. -/
lemma Reserved.light (hm : Reserved hash n u m) (hsmall : n < 2 ^ 28) (hu : u ≤ 8 * n) :
    m.loadFactor = false := by
  obtain ⟨e, -, he⟩ := hm.size
  have hn : n = 2 ^ e := hm.length_eq.symm.trans he
  have hroom : m.buckets.length = 2 ^ (e + 4) := by
    rw [hm.room, hm.length_eq, Nat.mod_eq_of_lt (by omega), hn, Nat.pow_add]
  have hcount : m.count ≤ 2 ^ (e + 3) := by
    rw [Nat.pow_add, ← hn]
    exact hm.count_le.trans (hu.trans_eq (Nat.mul_comm 8 n))
  refine decide_eq_false (not_lt.2 ?_)
  calc 2 * toFloat m.count ≤ 2 * 2 ^ (e + 3) := Nat.mul_le_mul_left _ (toFloat_le hcount)
    _ = toFloat m.buckets.length := by rw [hroom, toFloat_two_pow, ← Nat.pow_succ']

omit [DecidableEq K] [Inhabited K] [Inhabited V] in
lemma Reserved.open_ (hm : Reserved hash n u m) (hu : u ≤ 8 * n + 1) : m.Open hash := by
  have hpos := hm.pos
  have hlen := hm.length_eq
  have hused := hm.used
  have hcount := hm.count_le
  exact { hm.toTidy with light := by omega, hasEmpty := hasEmpty_of_usedSet (by omega) }

/-- One call: it returns, and the map stays the finite map's. -/
lemma Reserved.apply (hm : Reserved hash n u m) (hsmall : n < 2 ^ 28) (hfuel : 16 * n < fuel)
    {op : Op K V} (hu : u + op.writes ≤ 8 * n + 1) {f : K → Option V} (hf : m.Represents f) :
    ∃ m' r, m.apply hash fuel op = .ok (m', r) ∧ Reserved hash n (u + op.writes) m' ∧
      m'.Represents (stored f (op, r)) ∧ Returns f (op, r) := by
  have hlen := hm.length_eq
  have hload : op.writes ≠ 0 → m.loadFactor = false := fun h => hm.light hsmall (by omega)
  have hkeeps : Keeps hash m op := by
    have hlight : op.writes ≠ 0 → m.loadFactor → StaysPut hash m :=
      fun h hload' => absurd ((hload h).symm.trans hload') Bool.false_ne_true
    cases op with
    | insert k v => exact hlight one_ne_zero
    | upsert k stored => exact hlight one_ne_zero
    | remove k => trivial
    | clear => trivial
  obtain ⟨⟨m', r⟩, hcall⟩ := (hm.open_ (by omega)).apply_returns (hlen ▸ hsmall)
    (hlen ▸ hfuel) hload
  obtain ⟨hvalid, hf', hr⟩ := apply_ok hm.toValid hf hkeeps hcall
  obtain ⟨hlen', hused'⟩ := apply_used hm.toTidy hload hcall
  exact ⟨m', r, hcall, ⟨hvalid, hlen'.trans hlen,
    hused'.trans (Nat.add_le_add_right hm.used _)⟩, hf', hr⟩

/-- The calls one after the other, with what they return. -/
def calls (hash : K → UInt64) (fuel : ℕ) (m : Map K V false) :
    List (Op K V) → Run (Map K V false × List (Op K V × Option V))
  | [] => .ok (m, [])
  | op :: ops => do
    let (m, r) ← m.apply hash fuel op
    let (m, l) ← calls hash fuel m ops
    .ok (m, (op, r) :: l)

lemma Reserved.calls (hm : Reserved hash n u m) (hsmall : n < 2 ^ 28) (hfuel : 16 * n < fuel)
    {ops : List (Op K V)} (hu : u + (ops.map Op.writes).sum ≤ 8 * n + 1) {f : K → Option V}
    (hf : m.Represents f) :
    ∃ m' l, m.calls hash fuel ops = .ok (m', l) ∧ l.map Prod.fst = ops ∧
      Reserved hash n (8 * n + 1) m' ∧ m'.Represents (l.foldl stored f) ∧ AllReturn f l := by
  induction ops generalizing m u f with
  | nil => exact ⟨m, [], rfl, rfl, { hm with used := hm.used.trans hu }, hf, trivial⟩
  | cons op ops ih =>
    rw [List.map_cons, List.sum_cons, ← Nat.add_assoc] at hu
    have hfirst : u + op.writes ≤ 8 * n + 1 := by omega
    obtain ⟨m₁, r, hcall, hm₁, hf₁, hr⟩ := hm.apply hsmall hfuel hfirst hf
    obtain ⟨m', l, hrun, hops, hm', hf', hall⟩ := ih hm₁ hu hf₁
    refine ⟨m', (op, r) :: l, ?_, congrArg (op :: ·) hops, hm', hf', hr, hall⟩
    rw [Map.calls, hcall, Run.bind_ok]
    dsimp only
    rw [hrun, Run.bind_ok]

omit [Inhabited K] [Inhabited V] in
/-- `operator[]` reads the finite map. -/
lemma Reserved.lookup_eq (hm : Reserved hash n u m) (hu : u ≤ 8 * n + 1) (hfuel : n ≤ fuel)
    {f : K → Option V} (hf : m.Represents f) (k : K) : m.lookup hash fuel k = .ok (f k) := by
  obtain ⟨r, hr⟩ := (hm.open_ hu).lookup_returns (hm.length_eq.trans_le hfuel) k
  refine hr.trans (congrArg _ ?_)
  obtain ⟨i, c, w, hat, rfl⟩ | ⟨rfl, hmissed⟩ := lookup_ok hm.toSound hr
  · exact hf.eq_of_holds (hm.eq_some_iff hat)
  · exact hf.eq_of_holds (hm.eq_none_iff hmissed)

omit [DecidableEq K] in
lemma ofCapacity_reserved {cap : ℕ} (hcap : cap < 2 ^ 26) : ∃ m₀ : Map K V false,
    ofCapacity hash cap = .ok m₀ ∧ Reserved hash (2 ^ (Nat.size cap + 1)) 0 m₀ ∧
      m₀.Represents fun _ => none := by
  obtain ⟨m₀, hempty, hlen⟩ : ∃ m₀ : Map K V false, ofCapacity hash cap = .ok m₀ ∧
      m₀.controlBytes.length = 2 ^ (Nat.size cap + 1) := by
    refine ⟨Map.grow ⟨0, [], []⟩ (2 ^ (Nat.size cap + 1)), ?_, grow_length (Nat.zero_le _)⟩
    rw [ofCapacity, if_pos (by omega)]
    rfl
  obtain ⟨htidy, hbyte⟩ := ofCapacity_ok hempty
  refine ⟨m₀, hempty, ?_, fun k v => ?_⟩
  · refine ⟨⟨⟨htidy, fun h => absurd (hbyte _ _) h.1.1⟩, fun h => absurd (hbyte _ _) h.1.1⟩, hlen,
      Nat.le_zero.2 (Finset.card_eq_zero.2 (Finset.eq_empty_iff_forall_notMem.2 fun s hs => ?_))⟩
    exact mem_usedSet.1 hs (hbyte _ _)
  · exact iff_of_false (fun h => Option.some_ne_none v h.symm) fun ⟨i, c, hat⟩ =>
      hat.1.1 (hbyte i c)

end runs
end CoreCommon.Map
