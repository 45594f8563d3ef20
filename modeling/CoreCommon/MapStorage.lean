import CoreCommon.MapCalls

/-! What a `Map` stores, whether or not its keys can be found: no call loses an entry or
makes one up, and the walk from `begin` to `end` goes through the entries once each. -/
namespace CoreCommon.Map
variable {K V : Type} {multiple : Bool}

/-! ### The stored pairs -/

def slotBucket (m : Map K V multiple) (s : ℕ × Fin 16) : Option (K × V) :=
  m.buckets[s.1 * 16 + (s.2 : ℕ)]?

/-- The live pairs. -/
def entries (m : Map K V multiple) : Multiset (K × V) := m.liveSet.val.filterMap m.slotBucket

/-- Only slot `(i, c)` may hold something else. -/
def SameElsewhere (m m' : Map K V multiple) (i : ℕ) (c : Fin 16) : Prop :=
  ∀ i' c' k v, ¬ (i' = i ∧ c' = c) → (m'.At i' c' k v ↔ m.At i' c' k v)

/-- One live bucket with the key `k` gets the value `v`. -/
def Touches (m m' : Map K V multiple) (k : K) (v : V) : Prop :=
  ∃ i c w, m.At i c k w ∧ m'.At i c k v ∧ SameElsewhere m m' i c ∧
    (k, w) ::ₘ m'.entries = (k, v) ::ₘ m.entries

/-- One more bucket is live, in a slot that was free. -/
def Adds (m m' : Map K V multiple) (k : K) (v : V) : Prop :=
  ∃ i c, ¬ IsLive (m.byte i c) ∧ m'.At i c k v ∧ SameElsewhere m m' i c ∧
    m'.entries = (k, v) ::ₘ m.entries

/-- One live bucket fewer. -/
def Deletes (m m' : Map K V multiple) (k : K) (v : V) : Prop :=
  ∃ i c, m.At i c k v ∧ ¬ IsLive (m'.byte i c) ∧ SameElsewhere m m' i c ∧
    (k, v) ::ₘ m'.entries = m.entries

lemma filterMap_congr {α β : Type} {f g : α → Option β} {l : Multiset α}
    (h : ∀ s ∈ l, f s = g s) : l.filterMap f = l.filterMap g := by
  induction l using Quotient.inductionOn with
  | h l => exact congrArg _ (List.filterMap_congr h)

section slots
variable {m : Map K V multiple} {i : ℕ} {c : Fin 16} {k : K} {v w : V}

lemma entries_erase (h : m.At i c k v) : (k, v) ::ₘ (m.withByte i c sentinel).entries = m.entries := by
  have hval : m.liveSet.val = (i, c) ::ₘ (m.liveSet.erase (i, c)).val := by
    rw [← Finset.insert_val_of_notMem (Finset.notMem_erase _ _),
      Finset.insert_erase (mem_liveSet.2 h.1)]
  have hbucket : m.slotBucket (i, c) = some (k, v) := h.2
  rw [entries, entries, liveSet_withByte_free h.lt sentinel_not_live, hval,
    Multiset.filterMap_cons_some _ _ _ hbucket]
  rfl

lemma slotBucket_put_of_ne {b : UInt8} {e : K × V} {s : ℕ × Fin 16} (hs : (i, c) ≠ s) :
    (m.put i c b e).slotBucket s = m.slotBucket s :=
  List.getElem?_set_ne fun he => hs (Prod.ext (slot_injective he).1 (slot_injective he).2)

/-- The buckets other than that of `(i, c)` are not written. -/
lemma filterMap_put {b : UInt8} {e : K × V} {l : Multiset (ℕ × Fin 16)} (hl : (i, c) ∉ l) :
    l.filterMap (m.put i c b e).slotBucket = l.filterMap m.slotBucket :=
  filterMap_congr fun _ hs => slotBucket_put_of_ne fun he => hl (he ▸ hs)

lemma entries_put (hi : i < m.controlBytes.length) (hj : i * 16 + (c : ℕ) < m.buckets.length)
    {b : UInt8} (hb : IsLive b) {e : K × V} (hfree : ¬ IsLive (m.byte i c)) :
    (m.put i c b e).entries = e ::ₘ m.entries := by
  have hnot : (i, c) ∉ m.liveSet := fun h => hfree (mem_liveSet.1 h)
  have hlive : (m.put i c b e).liveSet = Insert.insert (i, c) m.liveSet := liveSet_withByte_live hi hb
  have hbucket : (m.put i c b e).slotBucket (i, c) = some e := List.getElem?_set_self hj
  rw [entries, hlive, Finset.insert_val_of_notMem hnot,
    Multiset.filterMap_cons_some _ _ _ hbucket, filterMap_put hnot]
  rfl

lemma put_withByte (b : UInt8) (e : K × V) (hi : i < m.controlBytes.length) :
    (m.withByte i c sentinel).put i c b e = m.put i c b e := by
  have hbyte : ∀ d, (m.withByte i c sentinel).byte i d = if d = c then sentinel else m.byte i d := by
    intro d
    rw [byte_withByte hi]
    simp
  have hgroup : Function.update ((m.withByte i c sentinel).byte i) c b =
      Function.update (m.byte i) c b := by
    funext d
    rw [Function.update_apply, Function.update_apply, hbyte]
    split_ifs <;> rfl
  unfold put
  rw [withByte, hgroup, withByte_buckets, withByte, List.set_set]
  rfl

lemma entries_overwrite (h : m.At i c k w) {b : UInt8} (hb : IsLive b) :
    (k, w) ::ₘ (m.put i c b (k, v)).entries = (k, v) ::ₘ m.entries := by
  have hj := (List.getElem?_eq_some_iff.1 h.2).1
  have hfree : ¬ IsLive ((m.withByte i c sentinel).byte i c) := by
    rw [byte_withByte h.lt, if_pos ⟨rfl, rfl⟩]
    exact sentinel_not_live
  have hlt : i < (m.withByte i c sentinel).controlBytes.length := (withByte_length _ _).symm ▸ h.lt
  rw [← put_withByte b (k, v) h.lt, entries_put hlt hj hb hfree, Multiset.cons_swap,
    entries_erase h]

lemma sameElsewhere_put (hi : i < m.controlBytes.length) (hj : i * 16 + (c : ℕ) < m.buckets.length)
    {b : UInt8} (hb : IsLive b) {e : K × V} : SameElsewhere m (m.put i c b e) i c := by
  intro i' c' k' v' hne
  rw [at_put hi hj hb]
  simp [hne, ← and_assoc]

lemma touches_put (h : m.At i c k w) {b : UInt8} (hb : IsLive b) : Touches m (m.put i c b (k, v)) k v := by
  have hj := (List.getElem?_eq_some_iff.1 h.2).1
  exact ⟨i, c, w, h, (at_put h.lt hj hb).2 (.inl ⟨rfl, rfl, rfl⟩), sameElsewhere_put h.lt hj hb,
    entries_overwrite h hb⟩

lemma adds_put (hi : i < m.controlBytes.length) (hj : i * 16 + (c : ℕ) < m.buckets.length)
    {b : UInt8} (hb : IsLive b) (hfree : ¬ IsLive (m.byte i c)) (count : ℕ) :
    Adds m ((m.put i c b (k, v)).withCount count) k v :=
  ⟨i, c, hfree, (at_put hi hj hb).2 (.inl ⟨rfl, rfl, rfl⟩), sameElsewhere_put hi hj hb,
    entries_put hi hj hb hfree⟩

lemma deletes_withByte (h : m.At i c k v) (count : ℕ) :
    Deletes m ((m.withByte i c sentinel).withCount count) k v := by
  have hbyte : (m.withByte i c sentinel).byte i c = sentinel := by
    rw [byte_withByte h.lt, if_pos ⟨rfl, rfl⟩]
  have hdead : ¬ IsLive ((m.withByte i c sentinel).byte i c) := by
    rw [hbyte]
    exact sentinel_not_live
  refine ⟨i, c, h, hdead, fun i' c' k' v' hne => ?_, entries_erase h⟩
  have hat : (m.withByte i c sentinel).At i' c' k' v' ↔ m.At i' c' k' v' := by
    rw [at_withByte h.lt sentinel_not_live]
    simp [hne]
  exact hat

end slots

/-! ### Resizing -/

section resizing
variable {hash : K → UInt64} {m m' : Map K V multiple} {prevSz n fuel : ℕ}

lemma Relocated.entries_eq {s : ℕ × Fin 16} (h : Relocated hash prevSz s m m') :
    m'.entries = m.entries := by
  cases h with
  | stays => rfl
  | @moves k v g c hat hg hj hclaims =>
    have hfree := (firstFree_eq_some hclaims.free).1
    have hlt : g < (m.withByte s.1 s.2 sentinel).controlBytes.length := by
      rw [withByte_length]
      exact hg
    rw [entries_put hlt hj (isLive_partialHash hash k) hfree, entries_erase hat]

lemma relocate_all_entries {todo : List (ℕ × Fin 16)} (hm : m.Tidy hash)
    (hn : m.controlBytes.length = n)
    (hrun : todo.foldlM (relocate hash fuel n prevSz) m = .ok m') :
    m'.Tidy hash ∧ m'.entries = m.entries := by
  induction todo generalizing m with
  | nil =>
    cases hrun
    exact ⟨hm, rfl⟩
  | cons s todo ih =>
    rw [List.foldlM_cons] at hrun
    obtain ⟨m₁, hfirst, hrun⟩ := Run.bind_eq_ok.1 hrun
    have hstep := relocate_ok hm.size hn hfirst
    obtain ⟨hm', hentries⟩ := ih (hm.relocated hstep) (hstep.length_eq.trans hn) hrun
    exact ⟨hm', hentries.trans hstep.entries_eq⟩

variable [Inhabited K] [Inhabited V]

lemma entries_grow (hm : m.Tidy hash) (hload : m.loadFactor)
    (hsmall : m.controlBytes.length < 2 ^ 27) :
    (m.grow (2 * m.controlBytes.length)).entries = m.entries := by
  have hle : m.controlBytes.length ≤ 2 * m.controlBytes.length := Nat.le_mul_of_pos_left _ two_pos
  obtain ⟨-, hroom, -⟩ := hm.of_loadFactor hload
  have hbucket : ∀ s ∈ m.liveSet.val, (m.grow (2 * m.controlBytes.length)).slotBucket s =
      m.slotBucket s := by
    intro s hs
    obtain ⟨b, hb⟩ := hm.stored _ _ (mem_liveSet.1 hs)
    refine grow_buckets ?_ (List.getElem?_eq_some_iff.1 hb).1
    rw [Nat.mod_eq_of_lt (by omega)]
    omega
  rw [entries, entries, liveSet_grow hle, filterMap_congr hbucket]

lemma checkResize_entries (hm : m.Tidy hash) (hrun : m.checkResize hash fuel = .ok m') :
    m'.Tidy hash ∧ m'.entries = m.entries := by
  obtain ⟨-, rfl⟩ | ⟨hload, hsmall, hrun⟩ := checkResize_ok hm hrun
  · exact ⟨hm, rfl⟩
  · have hle : m.controlBytes.length ≤ 2 * m.controlBytes.length :=
      Nat.le_mul_of_pos_left _ two_pos
    obtain ⟨hm', hentries⟩ := relocate_all_entries (hm.grow hload hsmall) (grow_length hle) hrun
    exact ⟨hm', hentries.trans (entries_grow hm hload hsmall)⟩

end resizing
/-! ### Calls -/

/-- The entry of `k` has the value `v`: over that of a live bucket, or in a free slot. -/
inductive Written (hash : K → UInt64) (m : Map K V multiple) (k : K) (v : V) :
    Option V → Map K V multiple → Prop
  | again {i : ℕ} {c : Fin 16} {w : V} (hat : m.At i c k w) :
      Written hash m k v (some w) (m.put i c (partialHash hash k) (k, v))
  | fresh {i : ℕ} {c : Fin 16} (hi : i < m.controlBytes.length)
      (hj : i * 16 + (c : ℕ) < m.buckets.length) (hfree : ¬ IsLive (m.byte i c)) :
      Written hash m k v none ((m.put i c (partialHash hash k) (k, v)).withCount (m.count + 1))

section calls
variable {hash : K → UInt64} {m m' : Map K V multiple} {fuel : ℕ} {k : K} {v : V} {r : Option V}

lemma Wrote.written (h : Wrote hash m k v r m') : Written hash m k v r m' := by
  cases h with
  | again hat => exact .again hat
  | fresh hvacant hj => exact .fresh hvacant.lt hj (firstFree_eq_some hvacant.free).1

lemma Written.tidy (hm : m.Tidy hash) (h : Written hash m k v r m') : m'.Tidy hash := by
  cases h with
  | again hat => exact hm.put_hit hat v
  | fresh hi hj hfree => exact hm.put_fresh hi hj k v hfree

lemma Written.touches_or_adds (h : Written hash m k v r m') : Touches m m' k v ∨ Adds m m' k v := by
  cases h with
  | again hat => exact .inl (touches_put hat (isLive_partialHash hash k))
  | fresh hi hj hfree => exact .inr (adds_put hi hj (isLive_partialHash hash k) hfree _)

lemma entries_eq_zero (hnone : ∀ i c, ¬ IsLive (m.byte i c)) : m.entries = 0 := by
  have hempty : m.liveSet = ∅ := Finset.eq_empty_of_forall_notMem fun s hs =>
    hnone _ _ (mem_liveSet.1 hs)
  rw [entries, hempty]
  rfl

variable [DecidableEq K] [Inhabited K] [Inhabited V]

/-- Where a map with duplicate keys puts a new one. -/
lemma place_multiple {m m' : Map K V true} {j : ℕ} {fresh : Bool}
    (hrun : m.place hash fuel k = .ok (m', j, fresh)) :
    ∃ m₁, m.checkResize hash fuel = .ok m₁ ∧ (m₁.Sound hash → ∃ (i : ℕ) (c : Fin 16),
      j = i * 16 + c ∧ fresh = true ∧ i < m₁.controlBytes.length ∧ ¬ IsLive (m₁.byte i c) ∧
        m' = (m₁.withByte i c (partialHash hash k)).withCount (m₁.count + 1)) := by
  unfold place at hrun
  obtain ⟨m₁, hresize, hrun⟩ := Run.bind_eq_ok.1 hrun
  refine ⟨m₁, hresize, fun hm₁ => ?_⟩
  rw [if_pos rfl] at hrun
  obtain ⟨⟨m₂, j'⟩, hloop, hrun⟩ := Run.bind_eq_ok.1 hrun
  obtain ⟨i, c, hi, hclaims, rfl, rfl⟩ := insertLoop_ok hm₁.size (probe_onChain hash m₁ k)
    (fun _ hj => absurd hj (Nat.not_lt_zero _)) hloop
  cases hrun
  exact ⟨i, c, rfl, rfl, hi, (firstFree_eq_some hclaims.free).1, rfl⟩

lemma insert_written (hrun : m.insert hash fuel k v = .ok (m', r)) :
    ∃ m₁, m.checkResize hash fuel = .ok m₁ ∧ (m₁.Sound hash → Written hash m₁ k v r m') := by
  cases multiple with
  | false =>
    obtain ⟨m₁, hresize, hwrote⟩ := insert_ok hrun
    exact ⟨m₁, hresize, fun hm₁ => (hwrote hm₁).written⟩
  | true =>
    unfold Map.insert at hrun
    obtain ⟨⟨m₂, j, fresh⟩, hplace, hrun⟩ := Run.bind_eq_ok.1 hrun
    obtain ⟨m₁, hresize, hplaced⟩ := place_multiple hplace
    refine ⟨m₁, hresize, fun hm₁ => ?_⟩
    obtain ⟨i, c, rfl, rfl, hi, hfree, rfl⟩ := hplaced hm₁
    dsimp only at hrun
    rw [if_pos rfl] at hrun
    obtain ⟨m₃, hset, hrun⟩ := Run.bind_eq_ok.1 hrun
    obtain ⟨hj, rfl⟩ := setBucket_eq_ok.1 hset
    cases hrun
    exact .fresh hi hj hfree

/-- An `upsert` and what is stored through its reference, as one write. -/
lemma upsert_written {stored : Option V} (hrun : m.apply hash fuel (.upsert k stored) = .ok (m', r)) :
    ∃ m₁, m.checkResize hash fuel = .ok m₁ ∧
      (m₁.Sound hash → ∃ v old, Written hash m₁ k v old m') := by
  cases multiple with
  | false =>
    obtain ⟨m₁, hresize, hwrote⟩ := apply_upsert_ok hrun
    refine ⟨m₁, hresize, fun hm₁ => ?_⟩
    obtain ⟨w, old, -, -, hwrote⟩ := hwrote hm₁
    exact ⟨_, _, hwrote.written⟩
  | true =>
    obtain ⟨⟨m₂, j⟩, hupsert, hrun⟩ := Run.bind_eq_ok.1 hrun
    unfold upsert at hupsert
    obtain ⟨⟨m₃, j', fresh⟩, hplace, hupsert⟩ := Run.bind_eq_ok.1 hupsert
    obtain ⟨m₁, hresize, hplaced⟩ := place_multiple hplace
    refine ⟨m₁, hresize, fun hm₁ => ?_⟩
    obtain ⟨i, c, rfl, rfl, hi, hfree, rfl⟩ := hplaced hm₁
    dsimp only at hupsert
    rw [if_pos rfl] at hupsert
    obtain ⟨⟨k₀, w⟩, hb, hupsert⟩ := Run.bind_eq_ok.1 hupsert
    obtain ⟨m₄, hset, hupsert⟩ := Run.bind_eq_ok.1 hupsert
    obtain ⟨hj, rfl⟩ := setBucket_eq_ok.1 hset
    cases hupsert
    have hnew : ∀ v, Written hash m₁ k v none _ := fun v => .fresh hi hj hfree
    obtain ⟨⟨k₁, w₁⟩, hb₁, hrun⟩ := Run.bind_eq_ok.1 hrun
    have hkey : some (k₁, w₁) = some (k, w) :=
      (bucket_eq_ok.1 hb₁).symm.trans (List.getElem?_set_self hj)
    cases hkey
    cases stored with
    | none =>
      cases hrun
      exact ⟨w, none, hnew w⟩
    | some v =>
      obtain ⟨m₅, hset, hrun⟩ := Run.bind_eq_ok.1 hrun
      obtain ⟨-, rfl⟩ := setBucket_eq_ok.1 hset
      cases hrun
      refine ⟨v, none, ?_⟩
      have hfresh := hnew v
      rwa [Map.put, withCount, ← List.set_set (k, w)] at hfresh

end calls
/-! ### Walking -/

/-- The indices of the buckets that `for (; it != last; ++it)` goes through. -/
def walkLoop (fuel last : ℕ) (m : Map K V multiple) : ℕ → Iterator → Run (List ℕ)
  | 0, _ => .error .diverges
  | steps + 1, it =>
    if it.c ≠ last then do
      let next ← it.next m fuel
      let l ← walkLoop fuel last m steps next
      .ok (it.c :: l)
    else .ok []

/-- The walk from `begin()` to `end()`. -/
def walk (fuel : ℕ) (m : Map K V multiple) : Run (List ℕ) := do
  let it ← m.begin fuel
  walkLoop fuel m.buckets.length m fuel it

section walking
variable {hash : K → UInt64} {m : Map K V multiple} {fuel : ℕ}

lemma Tidy.scan_ends (hm : m.Tidy hash) {c : ℕ} (hc : c ≤ m.buckets.length)
    (hfuel : m.buckets.length < fuel) : ∃ it, m.scan fuel c (c / 16) = .ok it ∧ it.From m c := by
  have hroom : m.buckets.length ≤ m.controlBytes.length * 16 := hm.room ▸ Nat.mod_le _ _
  obtain ⟨it, hit⟩ := Map.scan_ends hm.buckets_mod hroom hc (show _ < c / 16 + fuel by omega)
  exact ⟨it, hit, scan_ok hm.buckets_mod hc hit⟩

/-- The walk goes on with the live buckets from where it stands, in order. -/
lemma walkLoop_ok (hm : m.Tidy hash) (hfuel : m.buckets.length < fuel) {steps b : ℕ}
    {it : Iterator} (hit : it.From m b) (hsteps : m.buckets.length - it.c < steps) :
    ∃ l, walkLoop fuel m.buckets.length m steps it = .ok l ∧ l.Pairwise (· < ·) ∧
      ∀ q, q ∈ l ↔ it.c ≤ q ∧ q < m.buckets.length ∧ IsLive (m.byteAt q) := by
  induction steps generalizing it b with
  | zero => omega
  | succ steps ih =>
    unfold walkLoop
    by_cases hend : it.c = m.buckets.length
    · rw [if_neg (not_not.2 hend)]
      refine ⟨[], rfl, .nil, fun q => ⟨nofun, fun ⟨hle, hlt, _⟩ => ?_⟩⟩
      omega
    · have hlt := lt_of_le_of_ne hit.le_length hend
      obtain ⟨it', hscan, hit'⟩ := hm.scan_ends (c := it.c + 1) hlt hfuel
      have hle := hit'.le
      obtain ⟨l, hl, hsorted, hmem⟩ := ih hit' (by omega)
      rw [if_pos hend, hit.next_eq fuel hm hlt, hscan, Run.bind_ok, hl, Run.bind_ok]
      refine ⟨it.c :: l, rfl, List.pairwise_cons.2 ⟨fun q hq => ?_, hsorted⟩, fun q => ?_⟩
      · exact hle.trans ((hmem q).1 hq).1
      · rw [List.mem_cons, hmem]
        constructor
        · rintro (rfl | ⟨hq, hq', hlive⟩)
          · exact ⟨le_rfl, hlt, hit.live hlt⟩
          · exact ⟨(Nat.le_succ _).trans (hle.trans hq), hq', hlive⟩
        · rintro ⟨hq, hq', hlive⟩
          by_cases hnext : it'.c ≤ q
          · exact .inr ⟨hnext, hq', hlive⟩
          -- what the iterator skipped is not live
          · refine .inl (le_antisymm ?_ hq)
            by_contra hpast
            exact hit'.skipped q (not_le.1 hpast) (not_le.1 hnext) hlive

lemma walk_ok (hm : m.Tidy hash) (hfuel : m.buckets.length < fuel) :
    ∃ l, m.walk fuel = .ok l ∧ l.Pairwise (· < ·) ∧
      ∀ q, q ∈ l ↔ q < m.buckets.length ∧ IsLive (m.byteAt q) := by
  obtain ⟨it, hbegin, hit⟩ := hm.scan_ends (Nat.zero_le _) hfuel
  obtain ⟨l, hl, hsorted, hmem⟩ := walkLoop_ok hm hfuel hit (show _ < fuel by omega)
  refine ⟨l, ?_, hsorted, fun q => ?_⟩
  · have hrun : m.begin fuel = .ok it := hbegin
    rw [walk, hrun, Run.bind_ok, hl]
  · rw [hmem]
    refine ⟨And.right, fun ⟨hq, hlive⟩ => ⟨?_, hq, hlive⟩⟩
    by_contra hskipped
    exact hit.skipped q (Nat.zero_le _) (not_le.1 hskipped) hlive

end walking

/-! ### Runs -/

/-- The iterator points to an entry. -/
structure Iterator.OnEntry (m : Map K V multiple) (it : Iterator) : Prop where
  iter_eq : it.iter = it.c / 16
  live : IsLive (m.byteAt it.c)

section runs
variable [DecidableEq K] [Inhabited K] [Inhabited V] {hash : K → UInt64}
  {m m' : Map K V multiple} {fuel : ℕ}

/-- What completed calls make of an empty map. -/
inductive Reachable (hash : K → UInt64) : Map K V multiple → Prop
  | empty {cap : ℕ} {m : Map K V multiple} (hempty : ofCapacity hash cap = .ok m) : Reachable hash m
  | call {m m' : Map K V multiple} (hm : Reachable hash m) (fuel : ℕ) (op : Op K V) {r : Option V}
      (hcall : m.apply hash fuel op = .ok (m', r)) : Reachable hash m'
  | removeAt {m m' : Map K V multiple} (hm : Reachable hash m) {it : Iterator} (hit : it.OnEntry m)
      (hremove : it.remove m = .ok m') : Reachable hash m'

omit [DecidableEq K] [Inhabited K] [Inhabited V] in
lemma Iterator.OnEntry.remove_ok {it : Iterator} (hit : it.OnEntry m) (h : it.remove m = .ok m') :
    m' = (m.withByte (it.c / 16) ⟨it.c % 16, Nat.mod_lt _ (by decide)⟩ sentinel).withCount
      (m.count - 1) := by
  unfold Iterator.remove at h
  rw [hit.iter_eq, setControl_eq (lt_of_byte_ne_zero hit.live.1), Run.bind_ok] at h
  exact (Except.ok.inj h).symm

lemma Tidy.call {op : Op K V} {r : Option V} (hm : m.Tidy hash)
    (hcall : m.apply hash fuel op = .ok (m', r)) : m'.Tidy hash := by
  cases op with
  | insert k v =>
    obtain ⟨m₁, hresize, hwritten⟩ := insert_written hcall
    have hm₁ := (checkResize_entries hm hresize).1
    exact (hwritten hm₁.toSound).tidy hm₁
  | upsert k stored =>
    obtain ⟨m₁, hresize, hwritten⟩ := upsert_written hcall
    have hm₁ := (checkResize_entries hm hresize).1
    obtain ⟨v, old, hwritten⟩ := hwritten hm₁.toSound
    exact hwritten.tidy hm₁
  | remove k =>
    obtain ⟨i, c, w, hat, -, rfl⟩ | ⟨-, rfl, -⟩ := Map.remove_ok hm.toSound hcall
    · exact hm.erase hat.1
    · exact hm
  | clear =>
    obtain ⟨m₁, hclear, hcall⟩ := Run.bind_eq_ok.1 hcall
    cases hcall
    exact (clear_ok hm hclear).1

lemma Reachable.tidy (hm : Reachable hash m) : m.Tidy hash := by
  induction hm with
  | empty hempty => exact (ofCapacity_ok hempty).1
  | call _ _ _ hcall ih => exact ih.call hcall
  | removeAt _ hit hremove ih =>
    rw [hit.remove_ok hremove]
    exact ih.erase hit.live

/-- What a map stores, and what each completed call makes of it. -/
structure Conserves (hash : K → UInt64) (m : Map K V multiple) : Prop where
  counted : m.count = m.liveSet.card
  walked : ∃ n, ∀ fuel ≥ n, ∃ l, m.walk fuel = .ok l ∧ l.Nodup ∧
    ∀ q, q ∈ l ↔ q < m.buckets.length ∧ IsLive (m.byteAt q)
  stored : ∀ i c, IsLive (m.byte i c) → i * 16 + (c : ℕ) < m.buckets.length
  resized : ∀ fuel m', m.checkResize hash fuel = .ok m' → m'.entries = m.entries
  inserted : ∀ fuel k v m' r, m.insert hash fuel k v = .ok (m', r) →
    ∃ m₁, m.checkResize hash fuel = .ok m₁ ∧ (Touches m₁ m' k v ∨ Adds m₁ m' k v)
  upserted : ∀ fuel k stored m' r, m.apply hash fuel (.upsert k stored) = .ok (m', r) →
    ∃ m₁ v, m.checkResize hash fuel = .ok m₁ ∧ (Touches m₁ m' k v ∨ Adds m₁ m' k v)
  removed : ∀ fuel k m' r, m.remove hash fuel k = .ok (m', r) → m' = m ∨ ∃ v, Deletes m m' k v
  removedAt : ∀ (it : Iterator) m', it.OnEntry m → it.remove m = .ok m' → ∃ k v, Deletes m m' k v
  cleared : ∀ fuel m', m.clear fuel = .ok m' → m'.entries = 0 ∧ ∀ i c, ¬ IsLive (m'.byte i c)

/-- In every state reached, whether or not entries can be found by their keys. -/
theorem reachable_conserves (hm : Reachable hash m) : m.Conserves hash := by
  have htidy := hm.tidy
  have hstored : ∀ i c, IsLive (m.byte i c) → i * 16 + (c : ℕ) < m.buckets.length := by
    intro i c hlive
    obtain ⟨b, hb⟩ := htidy.stored i c hlive
    exact (List.getElem?_eq_some_iff.1 hb).1
  refine ⟨htidy.counted, ⟨m.buckets.length + 1, fun fuel hfuel => ?_⟩, hstored,
    fun fuel m' h => (checkResize_entries htidy h).2, fun fuel k v m' r h => ?_,
    fun fuel k stored m' r h => ?_, fun fuel k m' r h => ?_, fun it m' hit h => ?_,
    fun fuel m' h => ?_⟩
  · obtain ⟨l, hl, hsorted, hmem⟩ := walk_ok htidy hfuel
    exact ⟨l, hl, hsorted.imp ne_of_lt, hmem⟩
  · obtain ⟨m₁, hresize, hwritten⟩ := insert_written h
    have hm₁ := (checkResize_entries htidy hresize).1
    exact ⟨m₁, hresize, (hwritten hm₁.toSound).touches_or_adds⟩
  · obtain ⟨m₁, hresize, hwritten⟩ := upsert_written h
    have hm₁ := (checkResize_entries htidy hresize).1
    obtain ⟨v, old, hwritten⟩ := hwritten hm₁.toSound
    exact ⟨m₁, v, hresize, hwritten.touches_or_adds⟩
  · obtain ⟨i, c, w, hat, -, rfl⟩ | ⟨-, rfl, -⟩ := Map.remove_ok htidy.toSound h
    · exact .inr ⟨w, deletes_withByte hat _⟩
    · exact .inl rfl
  · rw [hit.remove_ok h]
    obtain ⟨⟨k, v⟩, hb⟩ := htidy.stored _ _ hit.live
    exact ⟨k, v, deletes_withByte ⟨hit.live, hb⟩ _⟩
  · obtain ⟨-, -, hnone⟩ := clear_ok htidy h
    exact ⟨entries_eq_zero hnone, hnone⟩

/-- A map with duplicate keys after two insertions of one key. -/
theorem reachable_conserves_example : ∃ m : Map ℕ ℕ true, m.count = 2 ∧
    m.Conserves fun _ => 257 := by
  have hrun : (ofCapacity (fun _ => 257) 0 >>= fun m₀ : Map ℕ ℕ true =>
      m₀.apply (fun _ => 257) 2 (.insert 1 5) >>= fun x =>
        x.1.apply (fun _ => 257) 2 (.insert 1 6) >>= fun y => .ok y.1.count) = .ok 2 := by
    decide +kernel
  obtain ⟨m₀, hempty, hrun⟩ := Run.bind_eq_ok.1 hrun
  obtain ⟨⟨m₁, r₁⟩, hfirst, hrun⟩ := Run.bind_eq_ok.1 hrun
  obtain ⟨⟨m₂, r₂⟩, hsecond, hrun⟩ := Run.bind_eq_ok.1 hrun
  exact ⟨m₂, Except.ok.inj hrun, reachable_conserves (((Reachable.empty hempty).call 2 _ hfirst).call
    2 _ hsecond)⟩

end runs
end CoreCommon.Map
