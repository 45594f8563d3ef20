import CoreCommon.MapProbe

/-! The effect of each call on the table, whether or not its keys can still be found. -/
namespace CoreCommon.Map
variable {K V : Type} {multiple : Bool}

/-! ### Finding a place for a key -/

section mono
variable {m m' : Map K V multiple} {start i g : ℕ} {c : Fin 16}

lemma Chained.mono (h : m.Chained start i)
    (hlen : m'.controlBytes.length = m.controlBytes.length)
    (hbyte : ∀ i c, m.byte i c ≠ 0 → m'.byte i c ≠ 0) : m'.Chained start i := by
  obtain ⟨j, hj, hpassed⟩ := h
  rw [← hlen] at hj
  refine ⟨j, hj, fun j' hj' d => ?_⟩
  rw [hlen]
  exact hbyte _ _ (hpassed j' hj' d)

lemma byte_withByte_ne_zero (hg : g < m.controlBytes.length) {b : UInt8} (hb : b ≠ 0) (i : ℕ)
    (d : Fin 16) (h : m.byte i d ≠ 0) : (m.withByte g c b).byte i d ≠ 0 := by
  rw [byte_withByte hg]
  split_ifs
  · exact hb
  · exact h

lemma Chained.put {hash : K → UInt64} {k : K} {v : V} (hg : g < m.controlBytes.length)
    (h : m.Chained start i) : (m.put g c (partialHash hash k) (k, v)).Chained start i :=
  h.mono (put_length _ _) (byte_withByte_ne_zero hg (isLive_partialHash hash k).1)

lemma Chained.tombstone (hg : g < m.controlBytes.length) (h : m.Chained start i) :
    (m.withByte g c sentinel).Chained start i :=
  h.mono (withByte_length _ _) (byte_withByte_ne_zero hg (by decide))

end mono

variable [DecidableEq K] {hash : K → UInt64} {fuel : ℕ} {k : K}

omit [DecidableEq K] in
/-- A failed search has missed every entry that is on its way. -/
lemma Searched.missed {m : Map K V multiple} {p : Probe} (h : Searched hash m k p none) {i : ℕ}
    {d : Fin 16} {v : V} (hat : m.At i d k v) : ¬ m.Chained (home hash k) i := by
  rintro ⟨j', rfl, hpassed⟩
  obtain ⟨j, hi, -, -, ⟨_, _, -, hr, -⟩ | ⟨-, ⟨e, he⟩, hmiss⟩⟩ := h
  · cases hr
  · by_cases hle : j' ≤ j
    · exact hmiss j' hle _ _ hat
    · rw [hi] at he
      exact hpassed j (not_le.1 hle) e he

lemma search_probe_ok {m : Map K V multiple} (hm : m.Sound hash) {p : Probe} {r : Option ℕ}
    (hrun : m.search k fuel (m.probe (doHash hash k)) = .ok (p, r)) : Searched hash m k p r :=
  search_ok hm (probe_onChain hash m k) (fun _ hj => absurd hj (Nat.not_lt_zero _))
    (fun _ hj => absurd hj (Nat.not_lt_zero _)) hrun

/-- The slot that a new entry of `k` takes in a table without duplicates: the first free one
of the first group on the way with an empty byte, when no entry of `k` is on the way. -/
structure Vacant (hash : K → UInt64) (m : Map K V multiple) (k : K) (i : ℕ) (c : Fin 16) :
    Prop where
  lt : i < m.controlBytes.length
  free : firstFree (m.byte i) = some c
  chained : m.Chained (home hash k) i
  empty : ∃ d, m.byte i d = 0
  missed : ∀ i' d v, m.At i' d k v → ¬ m.Chained (home hash k) i'

/-- The entry of `k` has the value `v`: over the old one if that is found, or else new. -/
inductive Wrote (hash : K → UInt64) (m : Map K V multiple) (k : K) (v : V) :
    Option V → Map K V multiple → Prop
  | again {i : ℕ} {c : Fin 16} {w : V} (hat : m.At i c k w) :
      Wrote hash m k v (some w) (m.put i c (partialHash hash k) (k, v))
  | fresh {i : ℕ} {c : Fin 16} (hvacant : Vacant hash m k i c)
      (hj : i * 16 + (c : ℕ) < m.buckets.length) :
      Wrote hash m k v none ((m.put i c (partialHash hash k) (k, v)).withCount (m.count + 1))

variable [Inhabited K] [Inhabited V] {m m' : Map K V false}

lemma place_ok {j : ℕ} {fresh : Bool} (hrun : m.place hash fuel k = .ok (m', j, fresh)) :
    ∃ m₁, m.checkResize hash fuel = .ok m₁ ∧ (m₁.Sound hash → ∃ (i : ℕ) (c : Fin 16),
      j = i * 16 + c ∧ (fresh = false ∧ m' = m₁ ∧ (∃ v, m₁.At i c k v) ∨
        fresh = true ∧ m' = (m₁.withByte i c (partialHash hash k)).withCount (m₁.count + 1) ∧
          Vacant hash m₁ k i c)) := by
  unfold place at hrun
  obtain ⟨m₁, hresize, hrun⟩ := Run.bind_eq_ok.1 hrun
  refine ⟨m₁, hresize, fun hm₁ => ?_⟩
  rw [if_neg Bool.false_ne_true] at hrun
  obtain ⟨⟨p, r⟩, hsearch, hrun⟩ := Run.bind_eq_ok.1 hrun
  obtain ⟨j', hi, hpassed, htarget, ⟨c, v, -, rfl, hat⟩ | ⟨rfl, hempty, -⟩⟩ :=
    search_probe_ok hm₁ hsearch
  · cases hrun
    exact ⟨p.i, c, rfl, .inl ⟨rfl, rfl, v, hat⟩⟩
  · have hmissed : ∀ i d v, m₁.At i d k v → ¬ m₁.Chained (home hash k) i :=
      fun _ _ _ => (search_probe_ok hm₁ hsearch).missed
    have hlt : p.i < m₁.controlBytes.length := hi ▸ probeAt_lt hm₁.pos _ _
    obtain ⟨⟨m₂, b⟩, hinsert, hrun⟩ := Run.bind_eq_ok.1 hrun
    cases hc : firstFree (m₁.byte p.i) with
    | none =>
      rw [insert_of_full hlt hc] at hinsert
      cases hinsert
      cases hrun
    | some c =>
      rw [insert_of_free hlt hc] at hinsert
      cases hinsert
      cases hrun
      refine ⟨p.i, c, rfl, .inr ⟨rfl, ?_, hlt, hc, ⟨j', hi, hpassed⟩, hempty, hmissed⟩⟩
      rw [htarget]
      rfl

lemma insert_ok {v : V} {r : Option V} (hrun : m.insert hash fuel k v = .ok (m', r)) :
    ∃ m₁, m.checkResize hash fuel = .ok m₁ ∧ (m₁.Sound hash → Wrote hash m₁ k v r m') := by
  unfold Map.insert at hrun
  obtain ⟨⟨m₂, j, fresh⟩, hplace, hrun⟩ := Run.bind_eq_ok.1 hrun
  obtain ⟨m₁, hresize, hplaced⟩ := place_ok hplace
  refine ⟨m₁, hresize, fun hm₁ => ?_⟩
  obtain ⟨i, c, rfl, ⟨rfl, rfl, w, hat⟩ | ⟨rfl, rfl, hvacant⟩⟩ := hplaced hm₁
  · dsimp only at hrun
    rw [if_neg Bool.false_ne_true, bucket_eq_ok.2 hat.2, Run.bind_ok] at hrun
    obtain ⟨m₃, hset, hrun⟩ := Run.bind_eq_ok.1 hrun
    obtain ⟨hj, rfl⟩ := setBucket_eq_ok.1 hset
    cases hrun
    rw [← put_self hat.lt, hm₁.target_eq _ _ _ _ hat]
    exact .again hat
  · dsimp only at hrun
    rw [if_pos rfl] at hrun
    obtain ⟨m₃, hset, hrun⟩ := Run.bind_eq_ok.1 hrun
    obtain ⟨hj, rfl⟩ := setBucket_eq_ok.1 hset
    cases hrun
    exact .fresh hvacant hj

omit [DecidableEq K] [Inhabited K] [Inhabited V] in
lemma At.put_self {m : Map K V multiple} {i : ℕ} {c : Fin 16} {v : V} (hm : m.Sound hash)
    (hat : m.At i c k v) : m.put i c (partialHash hash k) (k, v) = m := by
  obtain ⟨hj, hget⟩ := List.getElem?_eq_some_iff.1 hat.2
  rw [← hm.target_eq _ _ _ _ hat, Map.put_self hat.lt, ← hget, List.set_getElem_self]

lemma upsert_ok {j : ℕ} (hrun : m.upsert hash fuel k = .ok (m', j)) :
    ∃ m₁, m.checkResize hash fuel = .ok m₁ ∧ (m₁.Sound hash → ∃ (i : ℕ) (c : Fin 16) (w : V)
      (old : Option V), j = i * 16 + c ∧ m'.At i c k w ∧ (∀ v, old = some v → v = w) ∧
      Wrote hash m₁ k w old m' ∧ ∀ v, j < m'.buckets.length ∧
        Wrote hash m₁ k v old { m' with buckets := m'.buckets.set j (k, v) }) := by
  unfold upsert at hrun
  obtain ⟨⟨m₂, j', fresh⟩, hplace, hrun⟩ := Run.bind_eq_ok.1 hrun
  obtain ⟨m₁, hresize, hplaced⟩ := place_ok hplace
  refine ⟨m₁, hresize, fun hm₁ => ?_⟩
  obtain ⟨i, c, rfl, ⟨rfl, rfl, w, hat⟩ | ⟨rfl, rfl, hvacant⟩⟩ := hplaced hm₁
  · cases hrun
    have hj := (List.getElem?_eq_some_iff.1 hat.2).1
    refine ⟨i, c, w, some w, rfl, hat, fun v hv => (Option.some.inj hv).symm, ?_, fun v => ⟨hj, ?_⟩⟩
    · have hagain : Wrote hash m' k w (some w) _ := .again hat
      rwa [hat.put_self hm₁] at hagain
    · rw [← put_self hat.lt, hm₁.target_eq _ _ _ _ hat]
      exact .again hat
  · dsimp only at hrun
    rw [if_pos rfl] at hrun
    obtain ⟨⟨k₀, w⟩, hb, hrun⟩ := Run.bind_eq_ok.1 hrun
    obtain ⟨m₃, hset, hrun⟩ := Run.bind_eq_ok.1 hrun
    obtain ⟨hj, rfl⟩ := setBucket_eq_ok.1 hset
    cases hrun
    refine ⟨i, c, w, none, rfl, ?_, nofun, .fresh hvacant hj, fun v => ⟨?_, ?_⟩⟩
    · exact (at_put hvacant.lt hj (isLive_partialHash hash k)).2 (.inl ⟨rfl, rfl, rfl⟩)
    · rw [List.length_set]
      exact hj
    · have hfresh : Wrote hash m₁ k v none _ := .fresh hvacant hj
      rwa [Map.put, withCount, ← List.set_set (k, w)] at hfresh

/-- An `upsert` and what is stored through its reference, as one write. -/
lemma apply_upsert_ok {stored : Option V} {r : Option V}
    (hrun : m.apply hash fuel (.upsert k stored) = .ok (m', r)) :
    ∃ m₁, m.checkResize hash fuel = .ok m₁ ∧ (m₁.Sound hash → ∃ w old, r = some w ∧
      (∀ v, old = some v → v = w) ∧ Wrote hash m₁ k (stored.getD w) old m') := by
  obtain ⟨⟨m₂, j⟩, hupsert, hrun⟩ := Run.bind_eq_ok.1 hrun
  obtain ⟨m₁, hresize, hplaced⟩ := upsert_ok hupsert
  refine ⟨m₁, hresize, fun hm₁ => ?_⟩
  obtain ⟨i, c, w, old, rfl, hat, hold, hwrote, hstore⟩ := hplaced hm₁
  dsimp only at hrun
  rw [bucket_eq_ok.2 hat.2, Run.bind_ok] at hrun
  cases stored with
  | none =>
    cases hrun
    exact ⟨w, old, rfl, hold, hwrote⟩
  | some v =>
    obtain ⟨m₃, hset, hrun⟩ := Run.bind_eq_ok.1 hrun
    obtain ⟨-, rfl⟩ := setBucket_eq_ok.1 hset
    cases hrun
    exact ⟨w, old, rfl, hold, (hstore v).2⟩

omit [DecidableEq K] [Inhabited K] [Inhabited V] in
lemma Tidy.wrote {m m' : Map K V multiple} {v : V} {old : Option V} (hm : m.Tidy hash)
    (h : Wrote hash m k v old m') : m'.Tidy hash := by
  cases h with
  | again hat => exact hm.put_hit hat v
  | fresh hvacant hj => exact hm.put_fresh hvacant.lt hj k v (firstFree_eq_some hvacant.free).1

/-! ### Removing and reading -/

omit [Inhabited K] [Inhabited V] in
lemma remove_ok {m m' : Map K V multiple} (hm : m.Sound hash) {r : Option V}
    (hrun : m.remove hash fuel k = .ok (m', r)) :
    (∃ i c w, m.At i c k w ∧ r = some w ∧
      m' = (m.withByte i c sentinel).withCount (m.count - 1)) ∨
    (r = none ∧ m' = m ∧ ∀ i d v, m.At i d k v → ¬ m.Chained (home hash k) i) := by
  unfold Map.remove at hrun
  obtain ⟨⟨p, r'⟩, hsearch, hrun⟩ := Run.bind_eq_ok.1 hrun
  obtain ⟨j, hi, -, -, ⟨c, v, hc, rfl, hat⟩ | ⟨rfl, -, -⟩⟩ := search_probe_ok hm hsearch
  · obtain ⟨m₁, hremove, hrun⟩ := Run.bind_eq_ok.1 hrun
    unfold Probe.remove at hremove
    rw [dif_pos (hc ▸ c.2), setControl_eq hat.lt, Run.bind_ok] at hremove
    cases hremove
    obtain ⟨b, hb, hrun⟩ := Run.bind_eq_ok.1 hrun
    cases hrun
    have hb' : m.buckets[p.i * 16 + (c : ℕ)]? = some b := bucket_eq_ok.1 hb
    obtain rfl := Option.some.inj (hb'.symm.trans hat.2)
    have hslot : (⟨p.c, hc ▸ c.2⟩ : Fin 16) = c := Fin.ext hc
    rw [hslot]
    exact .inl ⟨p.i, c, v, hat, rfl, rfl⟩
  · cases hrun
    exact .inr ⟨rfl, rfl, fun _ _ _ => (search_probe_ok hm hsearch).missed⟩

omit [Inhabited K] [Inhabited V] in
/-- `operator[]` as a search. -/
lemma lookup_eq (m : Map K V false) (k : K) (fuel : ℕ) : m.lookup hash fuel k =
    m.search k fuel (m.probe (doHash hash k)) >>= fun r => match r.2 with
      | some j => do
        let b ← m.bucket j
        .ok (some b.2)
      | none => .ok none := by
  unfold lookup findBegin FindIterator.next
  rw [if_neg (by simp), findLoop_eq]
  cases m.search k fuel (m.probe (doHash hash k)) <;> rfl

omit [Inhabited K] [Inhabited V] in
lemma lookup_ok (hm : m.Sound hash) {r : Option V} (hrun : m.lookup hash fuel k = .ok r) :
    (∃ i c w, m.At i c k w ∧ r = some w) ∨
    (r = none ∧ ∀ i d v, m.At i d k v → ¬ m.Chained (home hash k) i) := by
  rw [lookup_eq] at hrun
  obtain ⟨⟨p, r'⟩, hsearch, hrun⟩ := Run.bind_eq_ok.1 hrun
  obtain ⟨j, hi, -, -, ⟨c, v, hc, rfl, hat⟩ | ⟨rfl, -, -⟩⟩ := search_probe_ok hm hsearch
  · dsimp only at hrun
    rw [bucket_eq_ok.2 hat.2] at hrun
    cases hrun
    exact .inl ⟨p.i, c, v, hat, rfl⟩
  · cases hrun
    exact .inr ⟨rfl, fun _ _ _ => (search_probe_ok hm hsearch).missed⟩

/-! ### Clearing -/

section clearing
omit [DecidableEq K] [Inhabited K] [Inhabited V]
variable {m m' : Map K V multiple}

lemma Tidy.buckets_mod (hm : m.Tidy hash) : m.buckets.length % 16 = 0 := by
  have := hm.room
  omega

lemma Tidy.not_live_of_walked (hm : m.Tidy hash)
    (hwalked : ∀ q < m.buckets.length, ¬ IsLive (m.byteAt q)) (i : ℕ) (c : Fin 16) :
    ¬ IsLive (m.byte i c) := by
  intro hlive
  obtain ⟨b, hb⟩ := hm.stored i c hlive
  have hlt := (List.getElem?_eq_some_iff.1 hb).1
  exact hwalked _ hlt ((byteAt_slot m i c).symm ▸ hlive)

/-- A map in which some live bytes of `m` have become tombstones. -/
structure Swept (m m' : Map K V multiple) : Prop where
  length_eq : m'.controlBytes.length = m.controlBytes.length
  buckets_eq : m'.buckets = m.buckets
  byte_eq : ∀ i c, m'.byte i c = m.byte i c ∨ m'.byte i c = sentinel ∧ IsLive (m.byte i c)

/-- The `size_t` of an iterator does not wrap, and its group follows it. -/
lemma Iterator.From.next_eq {it : Iterator} {b : ℕ} (hit : it.From m b) (fuel : ℕ)
    (hm : m.Tidy hash) (hlt : it.c < m.buckets.length) (m₁ : Map K V multiple) :
    Iterator.next m₁ fuel it = m₁.scan fuel (it.c + 1) ((it.c + 1) / 16) := by
  have hroom := hm.room
  have hc : (it.c + 1) % 2 ^ 64 = it.c + 1 := Nat.mod_eq_of_lt (by omega)
  have hiter : (if (it.c + 1) % 16 = 0 ∧ it.c + 1 ≠ 0 then it.iter + 1 else it.iter) =
      (it.c + 1) / 16 := by
    rw [hit.iter_eq]
    split_ifs <;> omega
  unfold Iterator.next
  dsimp only
  rw [hc, hiter]

/-- The round of `clear` at a live byte. -/
lemma clear_step (fuel : ℕ) (hm : m.Tidy hash) {it : Iterator} (hit : it.From m 0)
    (hlt : it.c < m.buckets.length) : ∃ m₁, it.remove m = .ok m₁ ∧ m₁.Tidy hash ∧ Swept m m₁ ∧
      (∀ q < it.c + 1, ¬ IsLive (m₁.byteAt q)) ∧
      Iterator.next m₁ fuel it = m₁.scan fuel (it.c + 1) ((it.c + 1) / 16) := by
  have hlive := hit.live hlt
  have hi := lt_of_byte_ne_zero hlive.1
  have hbyte : ∀ j d, ((m.withByte (it.c / 16) ⟨it.c % 16, Nat.mod_lt _ (by decide)⟩
      sentinel).withCount (m.count - 1)).byte j d = if j = it.c / 16 ∧ d = _ then sentinel
      else m.byte j d := byte_withByte hi _ _
  refine ⟨_, ?_, hm.erase hlive, ⟨withByte_length _ _, rfl, fun j d => ?_⟩, fun q hq => ?_, ?_⟩
  · unfold Iterator.remove
    rw [hit.iter_eq, setControl_eq hi, Run.bind_ok]
    rfl
  · rw [hbyte]
    split_ifs with hsame
    · obtain ⟨rfl, rfl⟩ := hsame
      exact .inr ⟨rfl, hlive⟩
    · exact .inl rfl
  · rw [byteAt, hbyte]
    split_ifs with hsame
    · exact sentinel_not_live
    · refine hit.skipped q (Nat.zero_le _) (lt_of_le_of_ne (Nat.le_of_lt_succ hq) ?_)
      rintro rfl
      exact hsame ⟨rfl, rfl⟩
  · exact hit.next_eq fuel hm hlt _

lemma Swept.trans {m₁ : Map K V multiple} (h : Swept m m₁) (h' : Swept m₁ m') : Swept m m' where
  length_eq := h'.length_eq.trans h.length_eq
  buckets_eq := h'.buckets_eq.trans h.buckets_eq
  byte_eq := by
    intro i c
    rcases h'.byte_eq i c with heq | ⟨hs, hlive⟩
    · rw [heq]
      exact h.byte_eq i c
    · rcases h.byte_eq i c with heq | ⟨hs', -⟩
      · exact .inr ⟨hs, heq ▸ hlive⟩
      · exact absurd hs' hlive.2

lemma Iterator.From.advance {it it' : Iterator} {m₁ : Map K V multiple}
    (hwalked : ∀ q < it.c + 1, ¬ IsLive (m₁.byteAt q)) (hfrom : it'.From m₁ (it.c + 1)) :
    it'.From m₁ 0 := by
  refine ⟨Nat.zero_le _, hfrom.le_length, hfrom.iter_eq, fun q _ hq => ?_, hfrom.live⟩
  by_cases hpast : it.c + 1 ≤ q
  · exact hfrom.skipped q hpast hq
  · exact hwalked q (not_le.1 hpast)

lemma clearLoop_ok {steps : ℕ} {it : Iterator} (hm : m.Tidy hash) (hit : it.From m 0)
    (hrun : clearLoop fuel m.buckets.length steps m it = .ok m') :
    m'.Tidy hash ∧ Swept m m' ∧ ∀ i c, ¬ IsLive (m'.byte i c) := by
  induction steps generalizing m it with
  | zero => cases hrun
  | succ steps ih =>
    unfold clearLoop at hrun
    by_cases hend : it.c = m.buckets.length
    · rw [if_neg (not_not.2 hend)] at hrun
      cases hrun
      exact ⟨hm, ⟨rfl, rfl, fun _ _ => .inl rfl⟩,
        hm.not_live_of_walked fun q hq => hit.skipped q (Nat.zero_le _) (hend ▸ hq)⟩
    · rw [if_pos hend] at hrun
      have hlt := lt_of_le_of_ne hit.le_length hend
      obtain ⟨m₁, hremove, hm₁, hswept, hwalked, hnext⟩ := clear_step fuel hm hit hlt
      rw [hremove, Run.bind_ok, hnext] at hrun
      obtain ⟨it', hscan, hrun⟩ := Run.bind_eq_ok.1 hrun
      rw [← hswept.buckets_eq] at hrun hlt
      have hfrom := scan_ok hm₁.buckets_mod hlt hscan
      obtain ⟨hm', hswept', hnone⟩ := ih hm₁ (hfrom.advance hwalked) hrun
      exact ⟨hm', hswept.trans hswept', hnone⟩

lemma clear_ok (hm : m.Tidy hash) (hrun : m.clear fuel = .ok m') :
    m'.Tidy hash ∧ Swept m m' ∧ ∀ i c, ¬ IsLive (m'.byte i c) := by
  unfold clear at hrun
  obtain ⟨it, hbegin, hrun⟩ := Run.bind_eq_ok.1 hrun
  have hfrom : it.From m 0 := scan_ok hm.buckets_mod (Nat.zero_le _) hbegin
  exact clearLoop_ok hm hfrom hrun

end clearing

/-! ### Resizing -/

section resizing
omit [DecidableEq K] [Inhabited K] [Inhabited V]
variable {m m' : Map K V multiple} {n prevSz : ℕ} {s : ℕ × Fin 16}

/-- What a resize does at one slot: nothing, or it moves the slot's entry to where the new
table has room for its key. -/
inductive Relocated (hash : K → UInt64) (prevSz : ℕ) (s : ℕ × Fin 16) (m : Map K V multiple) :
    Map K V multiple → Prop
  | stays (hhome : ∀ k v, m.At s.1 s.2 k v → home hash k % m.controlBytes.length < prevSz) :
      Relocated hash prevSz s m m
  | moves {k : K} {v : V} {g : ℕ} {c : Fin 16} (hat : m.At s.1 s.2 k v)
      (hg : g < m.controlBytes.length) (hj : g * 16 + (c : ℕ) < m.buckets.length)
      (hclaims : Claims hash (m.withByte s.1 s.2 sentinel) k g c) :
      Relocated hash prevSz s m ((m.withByte s.1 s.2 sentinel).put g c (partialHash hash k) (k, v))

lemma relocate_ok (hsize : ∃ e ≤ 31, m.controlBytes.length = 2 ^ e)
    (hn : m.controlBytes.length = n) (hrun : relocate hash fuel n prevSz m s = .ok m') :
    Relocated hash prevSz s m m' := by
  unfold relocate at hrun
  obtain ⟨current, hcurrent, hrun⟩ := Run.bind_eq_ok.1 hrun
  obtain ⟨hs, rfl⟩ := lt_of_control hcurrent
  subst hn
  by_cases hfree : m.byte s.1 s.2 = sentinel ∨ m.byte s.1 s.2 = 0
  · rw [if_pos hfree] at hrun
    cases hrun
    exact .stays fun k v hat => absurd hat.1 (not_isLive.2 hfree)
  · rw [if_neg hfree] at hrun
    obtain ⟨⟨k, v⟩, hb, hrun⟩ := Run.bind_eq_ok.1 hrun
    have hat : m.At s.1 s.2 k v := ⟨not_not.1 (mt not_isLive.1 hfree), bucket_eq_ok.1 hb⟩
    dsimp only at hrun
    split_ifs at hrun with hmove
    · rw [setControl_eq hs, Run.bind_ok] at hrun
      obtain ⟨⟨m₂, j⟩, hloop, hset⟩ := Run.bind_eq_ok.1 hrun
      have hlen : (m.withByte s.1 s.2 sentinel).controlBytes.length = m.controlBytes.length :=
        withByte_length _ _
      obtain ⟨g, c, hg, hclaims, rfl, rfl⟩ := insertLoop_ok (by rwa [hlen])
        (probe_onChain hash (m.withByte s.1 s.2 sentinel) k)
        (fun j' hj' => absurd hj' (Nat.not_lt_zero _)) hloop
      obtain ⟨hj, rfl⟩ := setBucket_eq_ok.1 hset
      exact .moves hat (hlen ▸ hg) hj hclaims
    · cases hrun
      refine .stays fun k' v' hat' => ?_
      rw [← (hat.bucket_unique hat').1]
      exact not_le.1 hmove

lemma Relocated.length_eq (h : Relocated hash prevSz s m m') :
    m'.controlBytes.length = m.controlBytes.length := by
  cases h with
  | stays => rfl
  | moves => exact (put_length _ _).trans (withByte_length _ _)

lemma Tidy.relocated (hm : m.Tidy hash) (h : Relocated hash prevSz s m m') : m'.Tidy hash := by
  cases h with
  | stays => exact hm
  | moves hat hg hj hclaims => exact hm.move hat hg hj (firstFree_eq_some hclaims.free).1

/-- Without buckets the resize ends at the first live slot. -/
lemma not_live_of_no_buckets {todo : List (ℕ × Fin 16)} (hnone : m.buckets = [])
    (hrun : todo.foldlM (relocate hash fuel n prevSz) m = .ok m') (hs : s ∈ todo) :
    ¬ IsLive (m.byte s.1 s.2) := by
  induction todo with
  | nil => cases hs
  | cons t todo ih =>
    rw [List.foldlM_cons] at hrun
    obtain ⟨m₁, hfirst, hrun⟩ := Run.bind_eq_ok.1 hrun
    unfold relocate at hfirst
    obtain ⟨current, hcurrent, hfirst⟩ := Run.bind_eq_ok.1 hfirst
    obtain ⟨-, rfl⟩ := lt_of_control hcurrent
    split_ifs at hfirst with hfree
    · cases hfirst
      rcases List.mem_cons.1 hs with rfl | hs
      · exact not_isLive.2 hfree
      · exact ih hrun hs
    · obtain ⟨b, hb, -⟩ := Run.bind_eq_ok.1 hfirst
      rw [bucket_eq_ok, hnone] at hb
      cases hb

lemma mem_slots {i : ℕ} {c : Fin 16} : (i, c) ∈ slots n ↔ i < n := by
  simp [slots]

end resizing

omit [DecidableEq K] in
/-- A completed resize: the table was doubled, and its slots were gone through. -/
lemma checkResize_ok {m m' : Map K V multiple} (hm : m.Tidy hash)
    (hrun : m.checkResize hash fuel = .ok m') : m.loadFactor = false ∧ m' = m ∨
      m.loadFactor = true ∧ m.controlBytes.length < 2 ^ 27 ∧
        (slots m.controlBytes.length).foldlM
          (relocate hash fuel (2 * m.controlBytes.length) m.controlBytes.length)
          (m.grow (2 * m.controlBytes.length)) = .ok m' := by
  rw [checkResize_eq hm] at hrun
  split_ifs at hrun with hload
  · refine .inr ⟨hload, ?_, hrun⟩
    obtain ⟨⟨i, c, hlive⟩, -, e, he27, he⟩ := hm.of_loadFactor hload
    have hpow : 2 ^ e ≤ 2 ^ 27 := Nat.pow_le_pow_right two_pos he27
    have hle : m.controlBytes.length ≤ 2 * m.controlBytes.length :=
      Nat.le_mul_of_pos_left _ two_pos
    by_contra hbig
    have hnone : (m.grow (2 * m.controlBytes.length)).buckets = [] := by
      rw [← List.length_eq_zero_iff, grow_buckets_length,
        show m.controlBytes.length = 2 ^ 27 by omega]
      norm_num
    have hi := lt_of_byte_ne_zero hlive.1
    exact absurd hlive (byte_grow hle i c ▸ not_live_of_no_buckets hnone hrun (mem_slots.2 hi))
  · cases hrun
    exact .inl ⟨Bool.eq_false_iff.2 hload, rfl⟩

end CoreCommon.Map
