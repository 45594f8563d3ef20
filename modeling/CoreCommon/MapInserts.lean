import CoreCommon.MapTermination
import CoreCommon.MapUpsert

/-! Insertions one after the other: when a table without duplicates takes all of them, and
what it then holds. -/
namespace CoreCommon.Map
variable {K V : Type} {multiple : Bool}

/-! ### The fuel -/

section fuel
variable {hash : K → UInt64} {m : Map K V multiple} {k : K}

lemma insertLoop_steady (m : Map K V multiple) (p : Probe) :
    Run.Steady fun fuel => insertLoop fuel m p := by
  intro fuel x h
  induction fuel generalizing m p with
  | zero => cases h
  | succ fuel ih =>
    dsimp only at h ⊢
    unfold insertLoop at h ⊢
    obtain ⟨⟨m₁, j⟩, hinsert, h⟩ := Run.bind_eq_ok.1 h
    rw [hinsert, Run.bind_ok]
    cases j with
    | some j => exact h
    | none => exact ih m₁ _ h

lemma relocate_steady (n prevSz : ℕ) (m : Map K V multiple) (s : ℕ × Fin 16) :
    Run.Steady fun fuel => relocate hash fuel n prevSz m s := by
  refine (Run.steady_const _).bind fun current => ?_
  dsimp only
  split_ifs
  · exact Run.steady_const _
  · refine (Run.steady_const _).bind fun b => ?_
    split_ifs
    · exact (Run.steady_const _).bind fun m₁ => (insertLoop_steady m₁ _).bind fun _ =>
        Run.steady_const _
    · exact Run.steady_const _

lemma foldlM_steady {α β : Type} {f : ℕ → β → α → Run β} (hf : ∀ b a, Run.Steady fun n => f n b a)
    (l : List α) (b : β) : Run.Steady fun n => l.foldlM (f n) b := by
  induction l generalizing b with
  | nil => exact Run.steady_const _
  | cons a l ih =>
    simp only [List.foldlM_cons]
    exact (hf b a).bind fun b' => ih b'

lemma checkResize_steady [Inhabited K] [Inhabited V] (m : Map K V multiple) :
    Run.Steady fun fuel => m.checkResize hash fuel := by
  unfold checkResize
  split_ifs
  · exact foldlM_steady (fun m₁ s => relocate_steady _ _ m₁ s) _ _
  · exact Run.steady_const _

variable [DecidableEq K]

lemma search_steady (m : Map K V multiple) (k : K) (p : Probe) :
    Run.Steady fun fuel => m.search k fuel p := by
  intro fuel x h
  induction fuel generalizing p with
  | zero => cases h
  | succ fuel ih =>
    dsimp only at h ⊢
    unfold search at h ⊢
    obtain ⟨⟨q, res⟩, hmatch, h⟩ := Run.bind_eq_ok.1 h
    rw [hmatch, Run.bind_ok]
    dsimp only at h ⊢
    split_ifs at h ⊢
    · exact h
    · exact ih _ h
    · exact h

variable [Inhabited K] [Inhabited V]

lemma place_steady (m : Map K V false) (k : K) :
    Run.Steady fun fuel => m.place hash fuel k := by
  unfold place
  refine (checkResize_steady m).bind fun m₁ => ?_
  simp only [Bool.false_eq_true, if_false]
  refine (search_steady m₁ k _).bind fun r => ?_
  obtain ⟨p, j⟩ := r
  cases j with
  | some j => exact Run.steady_const _
  | none => exact Run.steady_const _

lemma insert_steady (m : Map K V false) (k : K) (v : V) :
    Run.Steady fun fuel => m.insert hash fuel k v :=
  (place_steady m k).bind fun _ => Run.steady_const _

end fuel

/-! ### Resizing -/

section resizing
variable {hash : K → UInt64} {m : Map K V multiple} {n prevSz fuel : ℕ} {s : ℕ × Fin 16}

/-- Every step of a resize returns while the number of buckets does not wrap. -/
lemma relocate_returns (hm : m.Tidy hash) (hn : m.controlBytes.length = n) (hsmall : n < 2 ^ 28)
    (hfuel : n ≤ fuel) (hs : s.1 < n) : ∃ m', relocate hash fuel n prevSz m s = .ok m' := by
  subst hn
  have hroom : m.buckets.length = m.controlBytes.length * 16 :=
    hm.room.trans (Nat.mod_eq_of_lt (by omega))
  unfold relocate
  rw [control_eq hs, Run.bind_ok]
  by_cases hfree : m.byte s.1 s.2 = sentinel ∨ m.byte s.1 s.2 = 0
  · rw [if_pos hfree]
    exact ⟨m, rfl⟩
  · obtain ⟨b, hb⟩ := hm.stored s.1 s.2 (not_not.1 (mt not_isLive.1 hfree))
    rw [if_neg hfree, bucket_eq_ok.2 hb, Run.bind_ok]
    dsimp only
    split_ifs with hmove
    · have hlen : (m.withByte s.1 s.2 sentinel).controlBytes.length = m.controlBytes.length :=
        withByte_length _ _
      have hslot : ¬ IsLive ((m.withByte s.1 s.2 sentinel).byte s.1 s.2) := by
        rw [byte_withByte hs, if_pos ⟨rfl, rfl⟩]
        exact sentinel_not_live
      obtain ⟨⟨m₂, j⟩, hloop⟩ : ∃ r, insertLoop fuel (m.withByte s.1 s.2 sentinel)
          ((m.withByte s.1 s.2 sentinel).probe (doHash hash b.1)) = .ok r :=
        insertLoop_probe_ok (hlen ▸ hm.size) (hlen ▸ hfuel) (hlen ▸ hs) hslot
      rw [setControl_eq hs, Run.bind_ok, hloop, Run.bind_ok]
      obtain ⟨g, c, hg, -, rfl, rfl⟩ := insertLoop_ok (by rw [hlen]; exact hm.size)
        (probe_onChain hash (m.withByte s.1 s.2 sentinel) b.1)
        (fun j' hj' => absurd hj' (Nat.not_lt_zero _)) hloop
      refine ⟨_, setBucket_eq_ok.2 ⟨?_, rfl⟩⟩
      have hc := c.2
      rw [hlen] at hg
      show g * 16 + (c : ℕ) < m.buckets.length
      omega
    · exact ⟨m, rfl⟩

lemma relocate_all_returns {todo : List (ℕ × Fin 16)} (hm : m.Tidy hash)
    (hn : m.controlBytes.length = n) (hsmall : n < 2 ^ 28) (hfuel : n ≤ fuel)
    (htodo : ∀ s ∈ todo, s.1 < n) :
    ∃ m', todo.foldlM (relocate hash fuel n prevSz) m = .ok m' := by
  induction todo generalizing m with
  | nil => exact ⟨m, rfl⟩
  | cons s todo ih =>
    obtain ⟨m₁, hfirst⟩ : ∃ m₁, relocate hash fuel n prevSz m s = .ok m₁ :=
      relocate_returns hm hn hsmall hfuel (htodo s List.mem_cons_self)
    have hstep := relocate_ok hm.size hn hfirst
    obtain ⟨m', hrest⟩ := ih (hm.relocated hstep) (hstep.length_eq.trans hn) fun t ht =>
      htodo t (List.mem_cons_of_mem s ht)
    exact ⟨m', by rw [List.foldlM_cons, hfirst, Run.bind_ok, hrest]⟩

variable [Inhabited K] [Inhabited V]

lemma checkResize_returns (hm : m.Tidy hash)
    (hsmall : m.loadFactor → m.controlBytes.length < 2 ^ 27)
    (hfuel : 2 * m.controlBytes.length ≤ fuel) : ∃ m', m.checkResize hash fuel = .ok m' := by
  rw [checkResize_eq hm]
  split_ifs with hload
  · have hle : m.controlBytes.length ≤ 2 * m.controlBytes.length :=
      Nat.le_mul_of_pos_left _ two_pos
    have hlt := hsmall hload
    exact relocate_all_returns (hm.grow hload hlt) (grow_length hle) (by omega) hfuel fun s hs =>
      (mem_slots.1 hs).trans_le hle
  · exact ⟨m, rfl⟩

end resizing

/-! ### One insertion -/

def keys (m : Map K V multiple) : Multiset K := m.entries.map Prod.fst

/-- The search for `k` finds an entry of it, or there is none and the search ends at a group
where a new one can be put. -/
def Lands (hash : K → UInt64) (m : Map K V multiple) (k : K) : Prop :=
  Findable hash m k ∨ k ∉ m.keys ∧ m.HasEmpty ∧ m.controlBytes.length < 2 ^ 28

/-- The table can be doubled if that is due, and `k` then has its place. -/
def Receives [Inhabited K] [Inhabited V] (hash : K → UInt64) (m : Map K V multiple) (k : K) : Prop :=
  (m.loadFactor → m.controlBytes.length < 2 ^ 27) ∧
    ∀ fuel m₁, m.checkResize hash fuel = .ok m₁ → Lands hash m₁ k

section insertion
variable {hash : K → UInt64}

variable [DecidableEq K] [Inhabited K] [Inhabited V] {m m' : Map K V false} {k : K} {v : V}
  {fuel : ℕ} {r : Option V}

omit [Inhabited K] [Inhabited V] in
lemma Lands.search_returns (hm : m.Sound hash) (h : Lands hash m k) :
    ∃ n x, m.search k n (m.probe (doHash hash k)) = .ok x := by
  obtain ⟨i, c, w, hat, j, rfl, -⟩ | ⟨-, ⟨i, hi, c, hzero⟩, -⟩ := h
  · exact ⟨j + 1, search_ends hm (probe_onChain hash m k)
      ⟨j, by omega, Nat.zero_le j, .inr ⟨c, w, hat⟩⟩⟩
  · obtain ⟨e, -, he⟩ := id hm.size
    rw [he] at hi
    obtain ⟨j, -, rfl⟩ := exists_probeAt (home hash k) hi
    rw [← he] at hzero
    exact ⟨j + 1, search_ends hm (probe_onChain hash m k)
      ⟨j, by omega, Nat.zero_le j, .inl ⟨c, hzero⟩⟩⟩

/-- An insertion that has its place returns. -/
lemma Receives.insert_returns (hm : m.Tidy hash) (h : Receives hash m k) (v : V) :
    ∃ n x, m.insert hash n k v = .ok x := by
  obtain ⟨m₁, hresize⟩ := checkResize_returns hm h.1 le_rfl
  have hm₁ := (hm.checkResize hresize).1
  have hlands := h.2 _ m₁ hresize
  obtain ⟨n, ⟨p, b⟩, hsearch⟩ := hlands.search_returns hm₁.toSound
  have hspec := search_probe_ok hm₁.toSound hsearch
  set fuel := max (2 * m.controlBytes.length) n
  have hresize' := (checkResize_steady m).mono (le_max_left _ n) hresize
  have hsearch' := (search_steady m₁ k _).mono (le_max_right (2 * m.controlBytes.length) n) hsearch
  refine ⟨fuel, ?_⟩
  unfold Map.insert place
  rw [hresize', Run.bind_ok]
  simp only [Bool.false_eq_true, if_false]
  rw [hsearch', Run.bind_ok]
  obtain ⟨j, hi, -, -, ⟨c, w, -, rfl, hat⟩ | ⟨rfl, ⟨c, hzero⟩, hmissed⟩⟩ := hspec
  · rw [Run.bind_ok]
    simp only [Bool.false_eq_true, if_false]
    rw [bucket_eq_ok.2 hat.2, Run.bind_ok,
      setBucket_eq_ok.2 ⟨(List.getElem?_eq_some_iff.1 hat.2).1, rfl⟩, Run.bind_ok]
    exact ⟨_, rfl⟩
  · have hlt : p.i < m₁.controlBytes.length := hi ▸ probeAt_lt hm₁.pos _ _
    have hsmall : m₁.controlBytes.length < 2 ^ 28 := by
      rcases hlands with ⟨i', c', w, hat, hchained⟩ | ⟨-, -, hsmall⟩
      · exact absurd hchained ((search_probe_ok hm₁.toSound hsearch).missed hat)
      · exact hsmall
    have hroom : m₁.buckets.length = m₁.controlBytes.length * 16 :=
      hm₁.room.trans (Nat.mod_eq_of_lt (by omega))
    cases hfree : firstFree (m₁.byte p.i) with
    | none => exact absurd hzero (firstFree_eq_none hfree c).1
    | some d =>
      have hd := d.2
      dsimp only
      rw [insert_of_free hlt hfree, Run.bind_ok]
      simp only [Run.bind_ok, if_true]
      have hj : p.i * 16 + (d : ℕ) < ((m₁.withByte p.i d p.target).withCount
          ((m₁.withByte p.i d p.target).count + 1)).buckets.length := by
        show p.i * 16 + (d : ℕ) < m₁.buckets.length
        omega
      rw [setBucket_eq_ok.2 ⟨hj, rfl⟩, Run.bind_ok]
      exact ⟨_, rfl⟩

/-- An old value comes from an entry that the search found. -/
lemma insert_found {w : V} (hm : m.Tidy hash) (hrun : m.insert hash fuel k v = .ok (m', some w)) :
    ∃ m₁, m.checkResize hash fuel = .ok m₁ ∧ Findable hash m₁ k := by
  unfold Map.insert place at hrun
  obtain ⟨⟨m₂, j, fresh⟩, hplace, hrun⟩ := Run.bind_eq_ok.1 hrun
  obtain ⟨m₁, hresize, hplace⟩ := Run.bind_eq_ok.1 hplace
  have hm₁ := (hm.checkResize hresize).1
  refine ⟨m₁, hresize, ?_⟩
  simp only [Bool.false_eq_true, if_false] at hplace
  obtain ⟨⟨p, b⟩, hsearch, hplace⟩ := Run.bind_eq_ok.1 hplace
  obtain ⟨j', hi, hpassed, -, ⟨c, w', -, rfl, hat⟩ | ⟨rfl, -, -⟩⟩ :=
    search_probe_ok hm₁.toSound hsearch
  · exact ⟨p.i, c, w', hat, j', hi, hpassed⟩
  · obtain ⟨⟨m₃, b⟩, -, hplace⟩ := Run.bind_eq_ok.1 hplace
    cases b with
    | none => cases hplace
    | some b =>
      cases hplace
      obtain ⟨m₄, -, hrun⟩ := Run.bind_eq_ok.1 hrun
      cases hrun

/-- What an insertion does to the entries: one that was found is written over, or there is one
more. -/
lemma insert_entries (hm : m.Tidy hash) (hrun : m.insert hash fuel k v = .ok (m', r)) :
    ∃ m₁ t, m.checkResize hash fuel = .ok m₁ ∧ m'.entries = (k, v) ::ₘ t ∧
      (Findable hash m₁ k ∧ (∃ w, m.entries = (k, w) ::ₘ t) ∨
        ¬ Findable hash m₁ k ∧ m₁.HasEmpty ∧ m₁.controlBytes.length < 2 ^ 28 ∧ m.entries = t) := by
  obtain ⟨m₁, hresize, hwrote⟩ := insert_ok hrun
  obtain ⟨hm₁, hentries⟩ := checkResize_entries hm hresize
  rw [← hentries]
  cases hwrote hm₁.toSound with
  | @again i c w hat =>
    obtain ⟨m₂, hresize', hfound⟩ := insert_found hm hrun
    obtain rfl := Except.ok.inj (hresize.symm.trans hresize')
    obtain ⟨t, ht⟩ := Multiset.exists_cons_of_mem (mem_entries.2 ⟨i, c, hat⟩)
    have hwritten := entries_overwrite (v := v) hat (isLive_partialHash hash k)
    rw [ht, Multiset.cons_swap, Multiset.cons_inj_right] at hwritten
    exact ⟨m₁, t, hresize, hwritten, .inl ⟨hfound, w, ht⟩⟩
  | @fresh i c hvacant hj =>
    refine ⟨m₁, m₁.entries, hresize, entries_put hvacant.lt hj (isLive_partialHash hash k)
      (firstFree_eq_some hvacant.free).1, .inr ⟨?_, ⟨i, hvacant.lt, hvacant.empty⟩, ?_, rfl⟩⟩
    · exact fun ⟨i', c', w, hat, hchained⟩ => hvacant.missed i' c' w hat hchained
    · have hroom := hm₁.room
      obtain ⟨e, -, he⟩ := hm₁.size
      by_contra hbig
      have hle : 28 ≤ e := (Nat.pow_le_pow_iff_right one_lt_two).1 (he ▸ not_lt.1 hbig)
      have hnone : m₁.buckets.length = 0 := by
        rw [hroom, he, ← Nat.sub_add_cancel hle, Nat.pow_add, Nat.mul_assoc]
        exact Nat.mul_mod_left _ _
      omega

/-- An insertion leaves the keys distinct when they were and the key had its place. -/
lemma Receives.nodup_iff (hm : m.Tidy hash) (hrun : m.insert hash fuel k v = .ok (m', r)) :
    m'.keys.Nodup ↔ m.keys.Nodup ∧ Receives hash m k := by
  obtain ⟨m₁, t, hresize, hwritten, h⟩ := insert_entries hm hrun
  have hkeys₁ : m₁.keys = m.keys :=
    congrArg (Multiset.map Prod.fst) (checkResize_entries hm hresize).2
  have hkeys : m'.keys = k ::ₘ t.map Prod.fst := by
    rw [keys, hwritten, Multiset.map_cons]
  have hsmall : m.loadFactor → m.controlBytes.length < 2 ^ 27 := by
    intro hload
    obtain ⟨hload', -⟩ | ⟨-, hsmall, -⟩ := checkResize_ok hm hresize
    · exact absurd (hload'.symm.trans hload) Bool.false_ne_true
    · exact hsmall
  have hreceives : Receives hash m k ↔ Lands hash m₁ k := by
    refine ⟨fun h => h.2 _ _ hresize, fun h => ⟨hsmall, fun fuel' m₂ hresize' => ?_⟩⟩
    rwa [(checkResize_steady m).unique hresize' hresize]
  rw [hreceives]
  rcases h with ⟨hfound, w, h⟩ | ⟨hmissed, hempty, hlen, h⟩
  · have hsame : m'.keys = m.keys := by
      rw [hkeys, keys, h, Multiset.map_cons]
    rw [hsame]
    exact ⟨fun h => ⟨h, .inl hfound⟩, And.left⟩
  · have hold : m.keys = t.map Prod.fst := congrArg (Multiset.map Prod.fst) h
    rw [hkeys, ← hold, Multiset.nodup_cons]
    constructor
    · exact fun ⟨hnot, hnodup⟩ => ⟨hnodup, .inr ⟨hkeys₁ ▸ hnot, hempty, hlen⟩⟩
    · rintro ⟨hnodup, hfound | ⟨hnot, -, -⟩⟩
      · exact absurd hfound hmissed
      · exact ⟨hkeys₁ ▸ hnot, hnodup⟩

end insertion

/-! ### Insertions in turn -/

section insertions
variable [DecidableEq K] [Inhabited K] [Inhabited V] {hash : K → UInt64}

/-- Insert the pairs one after the other. -/
def insertAll (hash : K → UInt64) (fuel : ℕ) : Map K V multiple → List (K × V) →
    Run (Map K V multiple)
  | m, [] => .ok m
  | m, e :: l => do
    let (m, _) ← m.insert hash fuel e.1 e.2
    insertAll hash fuel m l

/-- Every pair has its place when its turn comes. -/
inductive Takes (hash : K → UInt64) : Map K V false → List (K × V) → Prop
  | nil (m) : Takes hash m []
  | cons {m m₁ : Map K V false} {e : K × V} {l r} (hreceives : Receives hash m e.1) (fuel : ℕ)
      (hrun : m.insert hash fuel e.1 e.2 = .ok (m₁, r)) (hrest : Takes hash m₁ l) :
      Takes hash m (e :: l)

/-- The value that a list of pairs gives a key, a later pair over an earlier one. -/
def latest : List (K × V) → K → Option V
  | [], _ => none
  | e :: l, k => (latest l k).or (if e.1 = k then some e.2 else none)

/-- `m'` holds the pairs of the list over those of `m`, and each key once. -/
structure Overlaid (m m' : Map K V multiple) (l : List (K × V)) : Prop where
  nodup : m'.keys.Nodup
  mem_iff : ∀ k v, (k, v) ∈ m'.entries ↔
    latest l k = some v ∨ latest l k = none ∧ (k, v) ∈ m.entries

variable {m m' m₁ : Map K V false} {e : K × V} {l : List (K × V)}

lemma insertAll_steady (m : Map K V false) (l : List (K × V)) :
    Run.Steady fun fuel => insertAll hash fuel m l := by
  induction l generalizing m with
  | nil => exact Run.steady_const _
  | cons e l ih => exact (insert_steady m e.1 e.2).bind fun x => ih x.1

/-- After an insertion that keeps the keys distinct there is the new pair, and of the others
those with another key. -/
lemma mem_entries_insert {fuel : ℕ} {r : Option V} (hm : m.Tidy hash)
    (hrun : m.insert hash fuel e.1 e.2 = .ok (m', r)) (hnodup : m'.keys.Nodup) (k : K) (v : V) :
    (k, v) ∈ m'.entries ↔ e.1 = k ∧ e.2 = v ∨ e.1 ≠ k ∧ (k, v) ∈ m.entries := by
  obtain ⟨m₁, t, -, hwritten, h⟩ := insert_entries hm hrun
  have hnot : ∀ w, (e.1, w) ∉ t := by
    rw [keys, hwritten, Multiset.map_cons, Multiset.nodup_cons] at hnodup
    exact fun w hmem => hnodup.1 (Multiset.mem_map.2 ⟨(e.1, w), hmem, rfl⟩)
  have hrest : (k, v) ∈ t ↔ e.1 ≠ k ∧ (k, v) ∈ m.entries := by
    by_cases hk : e.1 = k
    · subst hk
      exact iff_of_false (hnot v) fun hand => hand.1 rfl
    · rcases h with ⟨-, w, h⟩ | ⟨-, -, -, h⟩
      · rw [h, Multiset.mem_cons, Prod.mk.injEq]
        simp [hk, Ne.symm hk]
      · simp [h, hk]
  rw [hwritten, Multiset.mem_cons, hrest, Prod.mk.injEq, eq_comm, @eq_comm V v]

lemma Overlaid.cons {fuel : ℕ} {r : Option V} (hm : m.Tidy hash)
    (hrun : m.insert hash fuel e.1 e.2 = .ok (m₁, r)) (hnodup : m₁.keys.Nodup)
    (h : Overlaid m₁ m' l) : Overlaid m m' (e :: l) := by
  refine ⟨h.nodup, fun k v => ?_⟩
  have hlatest : latest (e :: l) k = (latest l k).or (if e.1 = k then some e.2 else none) := rfl
  rw [h.mem_iff, mem_entries_insert hm hrun hnodup, hlatest]
  cases latest l k with
  | some w => simp
  | none => by_cases hk : e.1 = k <;> simp [hk]

/-- Distinct keys at the end were distinct all along. -/
lemma insertAll_takes (hm : m.Tidy hash) {fuel : ℕ} (hrun : insertAll hash fuel m l = .ok m')
    (hnodup : m'.keys.Nodup) : m.keys.Nodup ∧ Takes hash m l := by
  induction l generalizing m with
  | nil =>
    obtain rfl := Except.ok.inj hrun
    exact ⟨hnodup, .nil m⟩
  | cons e l ih =>
    obtain ⟨⟨m₁, r⟩, hinsert, hrest⟩ := Run.bind_eq_ok.1 hrun
    have hcall : m.apply hash fuel (.insert e.1 e.2) = .ok (m₁, r) := hinsert
    obtain ⟨hnodup₁, htakes⟩ := ih (hm.call hcall) hrest
    obtain ⟨hnodup₀, hreceives⟩ := (Receives.nodup_iff hm hinsert).1 hnodup₁
    exact ⟨hnodup₀, .cons hreceives fuel hinsert htakes⟩

lemma Takes.insertAll (h : Takes hash m l) (hm : m.Tidy hash) (hnodup : m.keys.Nodup) :
    ∃ n m', insertAll hash n m l = .ok m' ∧ Overlaid m m' l := by
  induction h with
  | nil m => exact ⟨0, m, rfl, hnodup, fun k v => by simp [latest]⟩
  | @cons m m₁ e l r hreceives fuel hrun _ ih =>
    have hnodup₁ := (Receives.nodup_iff hm hrun).2 ⟨hnodup, hreceives⟩
    have hcall : m.apply hash fuel (.insert e.1 e.2) = .ok (m₁, r) := hrun
    obtain ⟨n, m', hrest, hoverlaid⟩ := ih (hm.call hcall) hnodup₁
    refine ⟨max fuel n, m', ?_, hoverlaid.cons hm hrun hnodup₁⟩
    have hrun' := (insert_steady m e.1 e.2).mono (le_max_left fuel n) hrun
    have hrest' := (insertAll_steady m₁ l).mono (le_max_right fuel n) hrest
    exact Run.bind_eq_ok.2 ⟨_, hrun', hrest'⟩

/-- The insertions return, with the pairs over the former ones and no key twice, exactly when
no key is there twice before and every pair has its place. -/
theorem insertAll_iff (hm : m.Tidy hash) : (∃ n m', (∀ fuel ≥ n,
    insertAll hash fuel m l = .ok m') ∧ Overlaid m m' l) ↔ m.keys.Nodup ∧ Takes hash m l := by
  constructor
  · rintro ⟨n, m', hrun, hoverlaid⟩
    exact insertAll_takes hm (hrun n le_rfl) hoverlaid.nodup
  · rintro ⟨hnodup, htakes⟩
    obtain ⟨n, m', hrun, hoverlaid⟩ := htakes.insertAll hm hnodup
    exact ⟨n, m', fun fuel hfuel => (insertAll_steady m l).mono hfuel hrun, hoverlaid⟩

end insertions

end CoreCommon.Map
